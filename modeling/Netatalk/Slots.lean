import Mathlib.Data.List.GetD
import Mathlib.Tactic.SplitIfs

/-! # Slots of which one is in use

A number of slots, each empty or holding the value of one key: one slot is in use and the others
are parked, the most recently used first.  Selecting a key parks the slot in use and brings the
slot of the key in its place, or an emptied one if no slot has it.  The slots may lose a value but
never change one: what they hold for another key is what they held, or nothing. -/

namespace Netatalk

open List

/-- How the value of a slot is read and emptied. -/
structure SlotKind (K α : Type) where
  /-- the key of a slot, none if it is empty -/
  key : α → Option K
  clear : α → α
  key_clear : ∀ a, key (clear a) = none

/-- The slot in use and the parked ones. -/
structure Slots (α : Type) where
  inUse : α
  parked : List α

namespace Slots

variable {K α : Type} [DecidableEq K] (sk : SlotKind K α)

/-- The parked slot to empty: the last empty one, or else the last. -/
def victim (parked : List α) : ℕ :=
  go 0 (parked.length - 1) parked
where
  /-- The scan over the parked slots, from slot `i` on. -/
  go (i victim : ℕ) : List α → ℕ
    | [] => victim
    | a :: l => go (i + 1) (if sk.key a = none then i else victim) l

/-- Park the slot in use and put the slot of `k`, or an empty one, in its place. -/
def select (k : K) (s : Slots α) : Slots α :=
  if sk.key s.inUse = some k then s
  else
    match s.parked.findIdx? (fun a => sk.key a = some k) with
    | some i => ⟨s.parked.getD i s.inUse, s.inUse :: s.parked.eraseIdx i⟩
    | none =>
      if sk.key s.inUse = none then s
      else
        let i := victim sk s.parked
        ⟨sk.clear (s.parked.getD i s.inUse), s.inUse :: s.parked.eraseIdx i⟩

/-- The values with a given key in a list of slots. -/
def withKey (k : K) (l : List α) : List α := l.filter fun a => sk.key a = some k

/-- The values the slots hold for a key. -/
def held (k : K) (s : Slots α) : List α := withKey sk k (s.inUse :: s.parked)

variable {sk} {k k' : K} {s : Slots α}

theorem withKey_cons_of_eq {a : α} (h : sk.key a = some k) (l : List α) :
    withKey sk k (a :: l) = a :: withKey sk k l := by
  simp [withKey, h]

theorem withKey_cons_of_ne {a : α} (h : sk.key a ≠ some k) (l : List α) :
    withKey sk k (a :: l) = withKey sk k l := by
  simp [withKey, h]

/-- The found slot splits the parked ones. -/
theorem split_of_findIdx {p : α → Bool} {l : List α} {i : ℕ} (h : l.findIdx? p = some i) (d : α) :
    ∃ l₁ a l₂, l = l₁ ++ a :: l₂ ∧ p a = true ∧ l.getD i d = a ∧ l.eraseIdx i = l₁ ++ l₂ := by
  obtain ⟨hi, hp, _⟩ := findIdx?_eq_some_iff_getElem.mp h
  refine ⟨l.take i, l[i], l.drop (i + 1), ?_, hp, ?_, ?_⟩
  · rw [← drop_eq_getElem_cons, take_append_drop]
  · rw [getD_eq_getElem _ _ hi]
  · rw [eraseIdx_eq_take_drop_succ]

theorem key_select :
    sk.key (select sk k s).inUse = none ∨ sk.key (select sk k s).inUse = some k := by
  fun_cases select sk k s with
  | case1 huse => exact .inr huse
  | case2 _ i hi =>
    obtain ⟨l₁, a, l₂, hl, ha, hget, her⟩ := split_of_findIdx hi s.inUse
    rw [hget]
    exact .inr (of_decide_eq_true ha)
  | case3 _ _ hempty => exact .inl hempty
  | case4 => exact .inl (sk.key_clear _)

theorem held_select_other (h : k' ≠ k) : (held sk k' (select sk k s)).Sublist (held sk k' s) := by
  fun_cases select sk k s with
  | case1 | case3 => exact List.Sublist.refl _
  | case2 _ i hi =>
    obtain ⟨l₁, a, l₂, hl, ha, hget, her⟩ := split_of_findIdx hi s.inUse
    have hkey : sk.key a ≠ some k' := by
      rw [of_decide_eq_true ha]
      exact fun h' => h (Option.some.inj h').symm
    rw [held, hget, withKey_cons_of_ne hkey]
    exact (Sublist.cons_cons _ (eraseIdx_sublist s.parked i)).filter _
  | case4 _ _ _ i =>
    have hkey : sk.key (sk.clear (s.parked.getD i s.inUse)) ≠ some k' := by
      rw [sk.key_clear]
      exact (Option.some_ne_none k').symm
    rw [held, withKey_cons_of_ne hkey]
    exact (Sublist.cons_cons _ (eraseIdx_sublist s.parked i)).filter _

theorem select_of_not_held (h : held sk k s = []) :
    sk.key (select sk k s).inUse = none ∧ withKey sk k (select sk k s).parked = [] := by
  have huse : sk.key s.inUse ≠ some k := by
    intro huse
    rw [held, withKey_cons_of_eq huse] at h
    cases h
  rw [held, withKey_cons_of_ne huse] at h
  have hnone : s.parked.findIdx? (fun a => sk.key a = some k) = none := by
    rw [findIdx?_eq_none_iff]
    intro a ha
    simpa using filter_eq_nil_iff.mp h a ha
  unfold select
  rw [if_neg huse, hnone]
  split_ifs with hempty
  · exact ⟨hempty, h⟩
  · refine ⟨sk.key_clear _, ?_⟩
    rw [withKey_cons_of_ne huse]
    exact sublist_nil.mp (h ▸ (eraseIdx_sublist _ _).filter _)

theorem select_of_held {a : α} (h : held sk k s = [a]) :
    (select sk k s).inUse = a ∧ withKey sk k (select sk k s).parked = [] := by
  fun_cases select sk k s with
  | case1 huse =>
    rw [held, withKey_cons_of_eq huse] at h
    exact cons.inj h
  | case2 huse i hi =>
    obtain ⟨l₁, b, l₂, hl, hb, hget, her⟩ := split_of_findIdx hi s.inUse
    have hsplit : withKey sk k s.parked = withKey sk k l₁ ++ b :: withKey sk k l₂ := by
      rw [hl, withKey, filter_append]
      exact congrArg _ (withKey_cons_of_eq (of_decide_eq_true hb) l₂)
    rw [held, withKey_cons_of_ne huse, hsplit] at h
    rw [hget, her, withKey_cons_of_ne huse, withKey, filter_append]
    obtain ⟨h₁, h₂⟩ | ⟨_, _, h₂⟩ := append_eq_cons_iff.mp h
    · obtain ⟨hba, hnil⟩ := cons.inj h₂
      exact ⟨hba, append_eq_nil_iff.mpr ⟨h₁, hnil⟩⟩
    · exact absurd h₂ (by simp)
  | case3 huse hnone | case4 huse hnone =>
    rw [held, withKey_cons_of_ne huse] at h
    rw [findIdx?_eq_none_iff] at hnone
    have ha : a ∈ withKey sk k s.parked := h ▸ mem_singleton_self a
    obtain ⟨hmem, hkey⟩ := mem_filter.mp ha
    rw [hnone a hmem] at hkey
    cases hkey

end Slots

end Netatalk
