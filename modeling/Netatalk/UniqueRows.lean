import Mathlib.Tactic.SplitIfs

/-! # Tables with unique keys

A table is the list of its rows.  Two rows `Clash` when they agree on one of the table's unique
keys; a table keeps its rows from clashing.  Rows are inserted and rewritten only when the new row
clashes with no other one, and deleting rows asks for nothing. -/

namespace Netatalk

open List

variable {ρ : Type} {clash : ρ → ρ → Prop} {rows : List ρ}

/-- No two rows agree on a unique key. -/
def UniqueRows (clash : ρ → ρ → Prop) (rows : List ρ) : Prop := rows.Pairwise fun a b => ¬ clash a b

namespace UniqueRows

theorem filter (h : UniqueRows clash rows) (p : ρ → Bool) : UniqueRows clash (rows.filter p) :=
  List.Pairwise.filter p h

theorem insert (h : UniqueRows clash rows) {r : ρ} (hr : ∀ a ∈ rows, ¬ clash a r) :
    UniqueRows clash (rows ++ [r]) := by
  refine pairwise_append.mpr ⟨h, pairwise_singleton _ _, fun a ha b hb => ?_⟩
  rw [mem_singleton.mp hb]
  exact hr a ha

variable (symm : ∀ {a b}, clash a b → clash b a)
include symm

theorem eq_of_clash (h : UniqueRows clash rows) {a b : ρ} (ha : a ∈ rows) (hb : b ∈ rows)
    (hc : clash a b) : a = b := by
  induction rows with
  | nil => cases ha
  | cons c rows ih =>
    obtain ⟨hc', hrows⟩ := pairwise_cons.mp h
    rcases mem_cons.mp ha with rfl | ha'
    · rcases mem_cons.mp hb with rfl | hb'
      · rfl
      · exact absurd hc (hc' b hb')
    · rcases mem_cons.mp hb with rfl | hb'
      · exact absurd (symm hc) (hc' a ha')
      · exact ih hrows ha' hb'

/-- The rows of a key are rewritten to one row that clashes with no other. -/
theorem rewrite (h : UniqueRows clash rows) {p : ρ → Bool} {r : ρ}
    (hp : ∀ {a b}, p a = true → p b = true → clash a b) (hr : ∀ a ∈ rows, p a = false → ¬ clash a r)
    : UniqueRows clash (rows.map fun a => if p a then r else a) := by
  induction rows with
  | nil => exact .nil
  | cons a rows ih =>
    obtain ⟨ha, hrows⟩ := pairwise_cons.mp h
    refine pairwise_cons.mpr ⟨?_, ih hrows fun b hb => hr b (by simp [hb])⟩
    intro b' hb'
    obtain ⟨b, hb, rfl⟩ := List.mem_map.mp hb'
    by_cases hpa : p a = true <;> by_cases hpb : p b = true
    · exact absurd (hp hpa hpb) (ha b hb)
    · simp only [hpa, hpb, if_true]
      exact fun hc => hr b (by simp [hb]) (by simpa using hpb) (symm hc)
    · simp only [hpa, hpb, if_true]
      exact hr a (by simp) (by simpa using hpa)
    · simp only [hpa, hpb]
      exact ha b hb

end UniqueRows

end Netatalk
