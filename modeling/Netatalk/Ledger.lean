import Mathlib

/-! # A ledger

Some of the owners hold an amount each.  A list has the holders, each once, and a counter has the
sum of what they hold. -/

namespace Netatalk

open List Function

/-- The list has exactly the owners that hold an amount, and the counter has the sum of them. -/
structure Balanced {ι : Type} (amount : ι → Option ℕ) (holders : List ι) (total : ℕ) : Prop where
  nodup : holders.Nodup
  mem : ∀ i, i ∈ holders ↔ (amount i).isSome
  total : total = (holders.map fun i => (amount i).getD 0).sum

namespace Balanced

variable {ι : Type} [DecidableEq ι] {amount : ι → Option ℕ} {holders : List ι} {total : ℕ}
  {i : ι} {n : ℕ}

omit [DecidableEq ι] in
theorem of_none (h : ∀ i, amount i = none) : Balanced amount [] 0 :=
  ⟨nodup_nil, fun i => by simp [h i], rfl⟩

section
variable (h : Balanced amount holders total) (hi : amount i = some n)
include h hi

theorem split : total = n + ((holders.erase i).map fun i => (amount i).getD 0).sum := by
  have hmem : i ∈ holders := (h.mem i).mpr (by rw [hi]; rfl)
  rw [h.total, ← sum_map_erase _ hmem, hi]
  rfl

theorem le_total : n ≤ total := by
  rw [h.split hi]
  exact Nat.le_add_right _ _

theorem drop : Balanced (update amount i none) (holders.erase i) (total - n) := by
  refine ⟨h.nodup.erase i, ?_, ?_⟩
  · intro j
    rw [h.nodup.mem_erase_iff, h.mem j]
    by_cases hj : j = i
    · simp [hj]
    · simp [hj]
  · rw [h.split hi, Nat.add_sub_cancel_left]
    congr 1
    apply map_congr_left
    intro j hj
    have hne : j ≠ i := (h.nodup.mem_erase_iff.mp hj).1
    rw [update_of_ne hne]

end

/-- An owner that holds nothing takes an amount. -/
theorem hold (h : Balanced amount holders total) (hi : amount i = none) (n : ℕ) :
    Balanced (update amount i (some n)) (holders ++ [i]) (total + n) := by
  have hmem : i ∉ holders := by
    rw [h.mem i, hi]
    simp
  refine ⟨?_, ?_, ?_⟩
  · rw [nodup_append]
    refine ⟨h.nodup, nodup_singleton i, ?_⟩
    intro j hj k hk hjk
    rw [mem_singleton] at hk
    exact hmem (hk ▸ hjk ▸ hj)
  · intro j
    rw [mem_append, h.mem j]
    by_cases hj : j = i
    · simp [hj]
    · simp [hj]
  · rw [map_append, sum_append, h.total]
    congr 1
    · congr 1
      apply map_congr_left
      intro j hj
      have hne : j ≠ i := fun hji => hmem (hji ▸ hj)
      rw [update_of_ne hne]
    · simp

end Balanced

end Netatalk
