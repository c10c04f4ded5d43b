import Mathlib.Order.Monotone.Basic

/-! # A value whose changes are stamped

A value changes from moment to moment, and each change stamps it from a clock that is behind the
observer's clock, by less than a tick.  An observer who knows only the stamp cannot see a change
that the same stamp covers.  If a stamp is older than the clock by a tick, though, then no later
change can give it again: a value read from then on is the value as long as the stamp stays. -/

namespace Netatalk

/-- The history of a value and of its stamp, beside the observer's clock. -/
structure Stamped (V : Type) where
  tick : ℤ
  clock : ℕ → ℤ
  value : ℕ → V
  stamp : ℕ → ℤ
  /-- there is a change just before moment `n + 1` -/
  changed : ℕ → Prop
  clock_mono : ∀ n, clock n ≤ clock (n + 1)
  kept : ∀ n, ¬ changed n → value (n + 1) = value n ∧ stamp (n + 1) = stamp n
  behind : ∀ n, changed n → clock (n + 1) - tick < stamp (n + 1) ∧ stamp (n + 1) ≤ clock (n + 1)
  start : stamp 0 ≤ clock 0

namespace Stamped

variable {V : Type} (H : Stamped V)

/-- No change between two moments. -/
def Quiet (a b : ℕ) : Prop := ∀ n, a ≤ n → n < b → ¬ H.changed n

variable {H} {a b : ℕ}

theorem clock_le (h : a ≤ b) : H.clock a ≤ H.clock b := monotone_nat_of_le_succ H.clock_mono h

theorem stamp_le_clock (n : ℕ) : H.stamp n ≤ H.clock n := by
  induction n with
  | zero => exact H.start
  | succ n ih =>
    by_cases hc : H.changed n
    · exact (H.behind n hc).2
    · rw [(H.kept n hc).2]
      exact ih.trans (H.clock_mono n)

theorem Quiet.value (h : H.Quiet a b) (hab : a ≤ b) :
    H.value b = H.value a ∧ H.stamp b = H.stamp a := by
  induction b, hab using Nat.le_induction with
  | base => exact ⟨rfl, rfl⟩
  | succ b hab ih =>
    obtain ⟨hv, hs⟩ := ih fun n ha hb => h n ha (by omega)
    obtain ⟨hv', hs'⟩ := H.kept b (h b hab (by omega))
    exact ⟨hv'.trans hv, hs'.trans hs⟩

theorem stamp_or_quiet (hab : a ≤ b) : H.clock a - H.tick < H.stamp b ∨ H.Quiet a b := by
  induction b, hab using Nat.le_induction with
  | base => exact .inr fun n ha hb => absurd ha (by omega)
  | succ b hab ih =>
    by_cases hc : H.changed b
    · have hclock : H.clock a ≤ H.clock (b + 1) := clock_le (by omega)
      have hbehind := (H.behind b hc).1
      left
      omega
    · rw [(H.kept b hc).2]
      refine ih.imp_right fun hq n ha hb => ?_
      rcases Nat.lt_succ_iff_lt_or_eq.mp hb with hlt | rfl
      · exact hq n ha hlt
      · exact hc

/-- What is read from moment `k` to moment `l`, after the clock has gone past the stamp by a tick,
is the value at each later moment that has the stamp. -/
theorem read_eq_value {j k l t : ℕ} {v : V} (hjk : j ≤ k) (hkl : k ≤ l) (hlt : l ≤ t)
    (hread : H.Quiet k l → v = H.value k) (hold : H.stamp t + H.tick ≤ H.clock j) :
    v = H.value t := by
  have hquiet : H.Quiet j t := by
    rcases (stamp_or_quiet (by omega) : H.clock j - H.tick < H.stamp t ∨ _) with hs | hq
    · omega
    · exact hq
  have hk : H.Quiet k t := fun n hn ht => hquiet n (by omega) ht
  rw [hread fun n hn hl => hk n hn (by omega)]
  exact (hk.value (by omega)).1.symm

end Stamped

end Netatalk
