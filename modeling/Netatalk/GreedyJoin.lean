import Mathlib

/-! # Greedy joining of letters

Words over letters of which some pairs join to one letter.  `compose` reads a word from the left and
joins each letter to the one before it while that is possible; `spread` takes the letters of a word
apart again.

* `composeWord_spread_iff`: composing a word that was taken apart gives it back exactly when no
  letter of it joins with what begins the next one (`Apart`), provided that the parts of a letter
  join to it and that a join is never smaller than what it was made from. -/

namespace Netatalk.GreedyJoin

open List

variable {α : Type} (join : α → α → Option α)

/-- The word after the letter `x`, which may still be joined to. -/
def compose : α → List α → List α
  | x, [] => [x]
  | x, y :: ys =>
    match join x y with
    | some z => compose z ys
    | none => x :: compose y ys

/-- A word with its letters joined as they come. -/
def composeWord : List α → List α
  | [] => []
  | x :: xs => compose join x xs

/-- The letter that all of `ys` make when they are joined to `x` one by one. -/
def joinAll : α → List α → Option α
  | x, [] => some x
  | x, y :: ys => (join x y).bind fun z => joinAll z ys

variable {join} {x y z : α} {xs ys : List α}

theorem compose_of_some (h : join x y = some z) : compose join x (y :: ys) = compose join z ys := by
  rw [compose, h]

theorem compose_of_none (h : join x y = none) :
    compose join x (y :: ys) = x :: compose join y ys := by
  rw [compose, h]

theorem compose_append (h : joinAll join x ys = some z) (zs : List α) :
    compose join x (ys ++ zs) = compose join z zs := by
  induction ys generalizing x with
  | nil =>
    cases h
    rfl
  | cons y ys ih =>
    obtain ⟨w, hw, hz⟩ := Option.bind_eq_some_iff.mp h
    rw [cons_append, compose_of_some hw, ih hz]

variable {rank : α → ℕ} {w : α}

theorem mem_compose (h : w ∈ compose join x xs) :
    w ∈ x :: xs ∨ ∃ a, ∃ b ∈ xs, join a b = some w := by
  induction xs generalizing x with
  | nil => exact .inl h
  | cons y ys ih =>
    rw [compose] at h
    split at h
    · rename_i z hz
      rcases ih h with hw | hw
      · rcases mem_cons.mp hw with rfl | hw
        · exact .inr ⟨x, y, mem_cons_self, hz⟩
        · exact .inl (mem_cons_of_mem _ (mem_cons_of_mem _ hw))
      · obtain ⟨a, b, hb, hj⟩ := hw
        exact .inr ⟨a, b, mem_cons_of_mem _ hb, hj⟩
    · rcases mem_cons.mp h with rfl | h
      · exact .inl mem_cons_self
      · rcases ih h with hw | ⟨a, b, hb, hj⟩
        · exact .inl (mem_cons_of_mem _ hw)
        · exact .inr ⟨a, b, mem_cons_of_mem _ hb, hj⟩

theorem mem_composeWord (h : w ∈ composeWord join xs) :
    w ∈ xs ∨ ∃ a, ∃ b ∈ xs, join a b = some w := by
  cases xs with
  | nil => exact .inl h
  | cons =>
    rcases mem_compose h with hw | ⟨a, b, hb, hj⟩
    · exact .inl hw
    · exact .inr ⟨a, b, mem_cons_of_mem _ hb, hj⟩

/-- The first letter of a composed word is the first one, or larger. -/
theorem exists_compose_eq (hrank : ∀ y ∈ xs, ∀ a b, join a y = some b → rank a < rank b) (x : α) :
    ∃ w ws, compose join x xs = w :: ws ∧ rank x ≤ rank w := by
  induction xs generalizing x with
  | nil => exact ⟨x, [], rfl, le_rfl⟩
  | cons y ys ih =>
    obtain ⟨hy, hys⟩ := forall_mem_cons.mp hrank
    cases hj : join x y with
    | some z =>
      obtain ⟨w, ws, hw, hle⟩ := ih hys z
      exact ⟨w, ws, by rw [compose_of_some hj, hw], (hy x z hj).le.trans hle⟩
    | none => exact ⟨x, compose join y ys, compose_of_none hj, le_rfl⟩

section spread
variable (join) (split : α → α × List α)

/-- A word with each letter taken apart into a first letter and what joins to it. -/
def spread (xs : List α) : List α := xs.flatMap fun x => (split x).1 :: (split x).2

/-- No letter joins with what begins the next one. -/
def Apart (xs : List α) : Prop := xs.IsChain fun x y => join x (split y).1 = none

variable {join} {split}

theorem spread_cons (x : α) (xs : List α) :
    spread split (x :: xs) = (split x).1 :: ((split x).2 ++ spread split xs) := rfl

section
variable (hrank : ∀ y ∈ spread split xs, ∀ a b, join a y = some b → rank a < rank b)
  (hsplit : ∀ y ∈ xs, joinAll join (split y).1 (split y).2 = some y)
include hrank hsplit

theorem compose_spread_iff :
    compose join x (spread split xs) = x :: xs ↔ Apart join split (x :: xs) := by
  induction xs generalizing x with
  | nil => simp [spread, compose, Apart]
  | cons y ys ih =>
    obtain ⟨hy, hys⟩ := forall_mem_cons.mp hsplit
    rw [spread_cons] at hrank
    obtain ⟨hfirst, hrest⟩ := forall_mem_cons.mp hrank
    have ih := @ih y (fun w hw => hrest w (mem_append_right _ hw)) hys
    rw [spread_cons, Apart, isChain_cons_cons, ← Apart, ← ih]
    cases hj : join x (split y).1 with
    | none =>
      rw [compose_of_none hj, compose_append hy, cons.injEq]
      exact and_congr_left fun _ => iff_of_true rfl rfl
    | some z =>
      obtain ⟨w, ws, hw, hle⟩ := exists_compose_eq hrest z
      rw [compose_of_some hj, hw]
      refine iff_of_false ?_ (by simp)
      intro heq
      -- the first letter has been joined to, so that it is another one
      have hlt := hfirst x z hj
      rw [head_eq_of_cons_eq heq] at hle
      omega

theorem composeWord_spread_iff : composeWord join (spread split xs) = xs ↔ Apart join split xs := by
  cases xs with
  | nil => simp [spread, composeWord, Apart]
  | cons x =>
    rw [spread_cons, composeWord, compose_append (hsplit x mem_cons_self)]
    exact compose_spread_iff
      (fun y hy => hrank y (mem_cons_of_mem _ (mem_append_right _ hy)))
      (forall_mem_cons.mp hsplit).2

end

end spread

end Netatalk.GreedyJoin
