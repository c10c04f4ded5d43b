import Mathlib.Data.Nat.Basic

/-! # Three-way bisection

`bisect cmp n` looks in `[0, n)` for an index at which the three-way comparison `cmp` of a key
with the entry there says `eq`.  On a range in which the entries before a smaller one are
smaller and those behind a larger one are larger (`Ascending cmp n`), it finds one whenever
there is one (`bisect_isSome_iff`). -/

namespace Netatalk

/-- The loop; every round at least halves `hi - lo`, so `hi - lo` rounds suffice. -/
def bisectLoop (cmp : ℕ → Ordering) : ℕ → ℕ → ℕ → Option ℕ
  | 0, _, _ => none
  | fuel + 1, lo, hi =>
    if lo < hi then
      let mid := lo + (hi - 1 - lo) / 2
      match cmp mid with
      | .eq => some mid
      | .lt => bisectLoop cmp fuel lo mid
      | .gt => bisectLoop cmp fuel (mid + 1) hi
    else none

def bisect (cmp : ℕ → Ordering) (n : ℕ) : Option ℕ := bisectLoop cmp n 0 n

/-- The entries of `[0, n)` ascend, as far as comparisons with the key can tell. -/
structure Ascending (cmp : ℕ → Ordering) (n : ℕ) : Prop where
  gt : ∀ i j, i ≤ j → j < n → cmp j = .gt → cmp i = .gt
  lt : ∀ i j, i ≤ j → j < n → cmp i = .lt → cmp j = .lt

variable {cmp : ℕ → Ordering} {n : ℕ}

/-- What is found compares equal. -/
theorem bisectLoop_some (fuel lo hi : ℕ) {k : ℕ} (h : bisectLoop cmp fuel lo hi = some k) :
    lo ≤ k ∧ k < hi ∧ cmp k = .eq := by
  fun_induction bisectLoop cmp fuel lo hi with
  | case2 _ lo hi _ mid hc =>
    rw [← Option.some.inj h]
    exact ⟨by omega, by omega, hc⟩
  | case3 _ lo hi _ mid _ ih =>
    obtain ⟨h1, h2, h3⟩ := ih h
    exact ⟨h1, by omega, h3⟩
  | case4 _ lo hi _ mid _ ih =>
    obtain ⟨h1, h2, h3⟩ := ih h
    exact ⟨by omega, h2, h3⟩
  | _ => cases h

/-- The loop keeps an equal entry inside its range. -/
theorem bisectLoop_isSome (ha : Ascending cmp n) {k : ℕ} (hk : cmp k = .eq) (fuel lo hi : ℕ)
    (hf : hi - lo ≤ fuel) (hn : hi ≤ n) (hlo : lo ≤ k) (hhi : k < hi) :
    (bisectLoop cmp fuel lo hi).isSome = true := by
  fun_induction bisectLoop cmp fuel lo hi with
  | case1 | case5 => omega
  | case2 => rfl
  | case3 _ lo hi _ mid hc ih =>
    apply ih (by omega) (by omega) hlo
    by_contra hge
    have := ha.lt _ k (by omega) (by omega) hc
    rw [hk] at this
    cases this
  | case4 _ lo hi _ mid hc ih =>
    refine ih (by omega) hn ?_ hhi
    by_contra hlt
    have := ha.gt k _ (by omega) (by omega) hc
    rw [hk] at this
    cases this

theorem bisect_isSome_iff (ha : Ascending cmp n) :
    (bisect cmp n).isSome = true ↔ ∃ k < n, cmp k = .eq := by
  constructor
  · intro h
    obtain ⟨k, hk⟩ := Option.isSome_iff_exists.mp h
    obtain ⟨_, hlt, he⟩ := bisectLoop_some n 0 n hk
    exact ⟨k, hlt, he⟩
  · rintro ⟨k, hlt, he⟩
    apply bisectLoop_isSome ha he
    · omega
    · exact Nat.le_refl n
    · exact Nat.zero_le k
    · exact hlt

end Netatalk
