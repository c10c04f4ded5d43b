import Mathlib.Data.Nat.Notation

/-! # The last write before a step

A register that some steps of a run write and all others leave alone holds, before step `k`, what
the last step before `k` that wrote it has put there, or its first content when none has. -/

namespace Netatalk

/-- Step `j` is the last one before `k` with the property. -/
structure LastBefore (p : ℕ → Prop) (k j : ℕ) : Prop where
  lt : j < k
  holds : p j
  none : ∀ m, j < m → m < k → ¬ p m

variable {j k : ℕ} {p : ℕ → Prop} {β : Type}

theorem LastBefore.unique {j' : ℕ} (h : LastBefore p k j) (h' : LastBefore p k j') : j = j' := by
  rcases Nat.lt_trichotomy j j' with hlt | heq | hgt
  · exact absurd h'.holds (h.none j' hlt h'.lt)
  · exact heq
  · exact absurd h.holds (h'.none j hgt h.lt)

theorem LastBefore.of_holds (h : p k) : LastBefore p (k + 1) k :=
  ⟨Nat.lt_succ_self k, h, fun m h₁ h₂ => absurd h₁ (by omega)⟩

theorem LastBefore.succ (h : LastBefore p k j) (hk : ¬ p k) : LastBefore p (k + 1) j := by
  refine ⟨by have := h.lt; omega, h.holds, ?_⟩
  intro m h₁ h₂
  rcases Nat.lt_or_ge m k with hlt | hge
  · exact h.none m h₁ hlt
  · rw [show m = k by omega]
    exact hk

variable {f v : ℕ → β} (hwrite : ∀ k, p k → f (k + 1) = v k) (hkeep : ∀ k, ¬ p k → f (k + 1) = f k)
include hwrite hkeep

/-- What a register holds before step `k`. -/
theorem register_cases (k : ℕ) :
    ((∀ j, j < k → ¬ p j) ∧ f k = f 0) ∨ ∃ j, LastBefore p k j ∧ f k = v j := by
  induction k with
  | zero => exact .inl ⟨fun j hj => absurd hj (by omega), rfl⟩
  | succ k ih =>
    by_cases hp : p k
    · exact .inr ⟨k, .of_holds hp, hwrite k hp⟩
    · rw [hkeep k hp]
      rcases ih with ⟨hnone, hf⟩ | ⟨j, hj, hf⟩
      · refine .inl ⟨?_, hf⟩
        intro j hj
        rcases Nat.lt_or_ge j k with hlt | hge
        · exact hnone j hlt
        · rw [show j = k by omega]
          exact hp
      · exact .inr ⟨j, hj.succ hp, hf⟩

/-- A register holds what its last writer wrote. -/
theorem register_of_last (h : LastBefore p k j) : f k = v j := by
  rcases register_cases hwrite hkeep k with ⟨hnone, _⟩ | ⟨j', hj', hf⟩
  · exact absurd h.holds (hnone j h.lt)
  · rw [h.unique hj']
    exact hf

end Netatalk
