import Mathlib.Data.List.Nodup
import Mathlib.Data.Nat.ModEq

/-! # Slots of a circular buffer

`ringSlots cap head count` lists the slots of a circular buffer of `cap` cells whose oldest
entry is at `head` and which holds `count` entries.  Pushing at the tail appends a slot
(`ringSlots_push`), moving the head drops the first one (`ringSlots_popHead`), and a buffer
that is not overfull names no slot twice (`ringSlots_nodup`).

`RingQueue` is a queue in such a buffer that keeps the two ends and no count, so that equal ends
mean an empty queue and one cell stays spare.  While it has room, its operations are those of a
list: `toList_push` and `toList_pop`.

`Advance` is a step of a first-in first-out queue that takes at most one entry.  Whatever the
steps, an entry at the head has been preceded by every entry that stood in front of it
(`InFront.advance`, `InFront.all_of_head`). -/

namespace Netatalk

open List Function

/-- The slots in use, oldest first. -/
def ringSlots (cap head count : ℕ) : List ℕ := (List.range count).map fun i => (head + i) % cap

variable {cap head count : ℕ}

theorem ringSlots_push : ringSlots cap head (count + 1) =
    ringSlots cap head count ++ [(head + count) % cap] := by
  simp only [ringSlots, range_succ, map_append, map_cons, map_nil]

theorem ringSlots_popHead : ringSlots cap head (count + 1) =
    head % cap :: ringSlots cap ((head + 1) % cap) count := by
  simp only [ringSlots, range_succ_eq_map, map_cons, List.map_map]
  congr 1
  apply map_congr_left
  intro i _
  simp only [comp_apply, Nat.mod_add_mod]
  congr 1
  omega

theorem add_mod_inj {i j : ℕ} (hi : i < cap) (hj : j < cap)
    (h : (head + i) % cap = (head + j) % cap) : i = j := by
  have hij : i % cap = j % cap := Nat.ModEq.add_left_cancel' head h
  rwa [Nat.mod_eq_of_lt hi, Nat.mod_eq_of_lt hj] at hij

theorem ringSlots_nodup (h : count ≤ cap) : (ringSlots cap head count).Nodup := by
  apply Nodup.map_on _ nodup_range
  intro i hi j hj e
  rw [mem_range] at hi hj
  exact add_mod_inj (by omega) (by omega) e

theorem tail_notMem_ringSlots (h : count < cap) :
    (head + count) % cap ∉ ringSlots cap head count := by
  have hn : (ringSlots cap head (count + 1)).Nodup := ringSlots_nodup (Nat.succ_le_of_lt h)
  rw [ringSlots_push, nodup_append'] at hn
  exact fun hm => hn.2.2 hm (mem_singleton_self _)

theorem tail_sub_one_mod (hcap : 0 < cap) :
    ((head + (count + 1)) % cap + cap - 1) % cap = (head + count) % cap := by
  have hlt := Nat.mod_lt (head + count) hcap
  rw [← add_assoc, Nat.add_mod (head + count) 1]
  by_cases h1 : cap = 1
  · subst h1
    omega
  · rw [Nat.mod_eq_of_lt (show 1 < cap by omega)]
    generalize (head + count) % cap = r at hlt
    by_cases hr : r + 1 < cap
    · rw [Nat.mod_eq_of_lt hr, show r + 1 + cap - 1 = r + cap by omega, Nat.add_mod_right,
        Nat.mod_eq_of_lt hlt]
    · rw [show r + 1 = cap by omega, Nat.mod_self, Nat.mod_eq_of_lt (by omega)]
      omega

/-! ### A queue with a spare cell -/

/-- The cells of a circular buffer, the position of the oldest entry and that of the next one. -/
structure RingQueue (α : Type) where
  cells : ℕ → α
  cap : ℕ
  head : ℕ
  tail : ℕ

namespace RingQueue

variable {α : Type} (q : RingQueue α)

/-- The position after `i`. -/
def next (i : ℕ) : ℕ := if i + 1 = q.cap then 0 else i + 1

/-- Put an entry at the tail. -/
def push (x : α) : RingQueue α :=
  { q with cells := update q.cells q.tail x, tail := q.next q.tail }

/-- Take the entry at the head. -/
def pop : Option (α × RingQueue α) :=
  if q.head = q.tail then none else some (q.cells q.head, { q with head := q.next q.head })

/-- The entries, oldest first. -/
def toList : List α :=
  (ringSlots q.cap q.head ((q.tail + q.cap - q.head) % q.cap)).map q.cells

/-- Both ends are positions of the buffer. -/
structure Wf : Prop where
  head_lt : q.head < q.cap
  tail_lt : q.tail < q.cap

variable {q}

theorem length_toList : q.toList.length = (q.tail + q.cap - q.head) % q.cap := by
  simp [toList, ringSlots]

theorem Wf.next_eq {i : ℕ} (hi : i < q.cap) : q.next i = (i + 1) % q.cap := by
  unfold next
  split_ifs with h
  · rw [h, Nat.mod_self]
  · rw [Nat.mod_eq_of_lt (by omega)]

theorem Wf.tail_eq (h : q.Wf) : (q.head + q.toList.length) % q.cap = q.tail := by
  have := h.head_lt
  rw [length_toList, Nat.add_mod_mod, show q.head + (q.tail + q.cap - q.head) = q.tail + q.cap by
    omega, Nat.add_mod_right, Nat.mod_eq_of_lt h.tail_lt]

theorem Wf.length_lt (h : q.Wf) : q.toList.length < q.cap := by
  rw [length_toList]
  exact Nat.mod_lt _ (Nat.lt_of_le_of_lt (Nat.zero_le _) h.head_lt)

theorem Wf.toList_eq (h : q.Wf) {n : ℕ} (hn : n < q.cap) (ht : (q.head + n) % q.cap = q.tail) :
    q.toList = (ringSlots q.cap q.head n).map q.cells := by
  have hlen : q.toList.length = n := add_mod_inj h.length_lt hn (h.tail_eq.trans ht.symm)
  rw [length_toList] at hlen
  rw [toList, hlen]

theorem Wf.eq_nil_iff (h : q.Wf) : q.toList = [] ↔ q.head = q.tail := by
  rw [← length_eq_zero_iff]
  constructor
  · intro h0
    have ht := h.tail_eq
    rwa [h0, add_zero, Nat.mod_eq_of_lt h.head_lt] at ht
  · intro he
    rw [length_toList, he, Nat.add_sub_cancel_left, Nat.mod_self]

theorem Wf.toList_push (h : q.Wf) (x : α) (hroom : q.toList.length + 1 < q.cap) :
    (q.push x).toList = q.toList ++ [x] ∧ (q.push x).Wf := by
  have hnext : q.next q.tail = (q.tail + 1) % q.cap := Wf.next_eq h.tail_lt
  have hwf : (q.push x).Wf := ⟨h.head_lt, by
    simp only [push, hnext]
    exact Nat.mod_lt _ (by omega)⟩
  have htail : (q.head + (q.toList.length + 1)) % q.cap = (q.push x).tail := by
    simp only [push, hnext]
    rw [← add_assoc, ← Nat.mod_add_mod, h.tail_eq]
  refine ⟨?_, hwf⟩
  rw [hwf.toList_eq hroom htail]
  conv_rhs => rw [h.toList_eq h.length_lt h.tail_eq]
  simp only [push, ringSlots_push, map_append, map_cons, h.tail_eq,
    update_self]
  congr 1
  apply map_congr_left
  intro i hi
  have hne : i ≠ q.tail := by
    rintro rfl
    have hfree : (q.head + q.toList.length) % q.cap ∉ ringSlots q.cap q.head q.toList.length :=
      tail_notMem_ringSlots h.length_lt
    rw [h.tail_eq] at hfree
    exact hfree hi
  exact update_of_ne hne x q.cells

theorem Wf.toList_pop (h : q.Wf) {x : α} {q' : RingQueue α} (hp : q.pop = some (x, q')) :
    q.toList = x :: q'.toList ∧ q'.Wf ∧ q'.cap = q.cap := by
  unfold pop at hp
  split_ifs at hp with he
  obtain ⟨rfl, rfl⟩ := hp
  have hpos : q.toList.length ≠ 0 := fun h0 => he (h.eq_nil_iff.mp (length_eq_zero_iff.mp h0))
  obtain ⟨n, hn⟩ := Nat.exists_eq_succ_of_ne_zero hpos
  have hlt := h.length_lt
  have hnext : q.next q.head = (q.head + 1) % q.cap := Wf.next_eq h.head_lt
  have hwf : ({ q with head := q.next q.head } : RingQueue α).Wf := ⟨by
    simp only [hnext]
    exact Nat.mod_lt _ (by omega), h.tail_lt⟩
  have htail : (q.next q.head + n) % q.cap = q.tail := by
    rw [hnext, Nat.mod_add_mod, ← h.tail_eq]
    congr 1
    omega
  refine ⟨?_, hwf, rfl⟩
  rw [hwf.toList_eq (by simp only; omega) htail, h.toList_eq hlt h.tail_eq, hn]
  simp only [ringSlots_popHead, map_cons, Nat.mod_eq_of_lt h.head_lt, hnext]

end RingQueue

/-! ### The order of a queue -/

section order
variable {α : Type} {q q' : List α} {x : Option α} {entries log : List α} {r : α}

/-- A step that takes the entry `x`, if any, from the front and appends others. -/
def Advance (q : List α) (x : Option α) (q' : List α) : Prop :=
  ∃ rest pushed, q = x.toList ++ rest ∧ q' = rest ++ pushed

/-- Each of the entries is in the log or in front of `r`, unless all of them are in the log. -/
def InFront (entries : List α) (r : α) (log q : List α) : Prop :=
  (∀ f ∈ entries, f ∈ log) ∨ ∃ q₁ q₂, q = q₁ ++ r :: q₂ ∧ ∀ f ∈ entries, f ∈ log ∨ f ∈ q₁

theorem InFront.advance (h : InFront entries r log q) (ha : Advance q x q') :
    InFront entries r (log ++ x.toList) q' := by
  rcases h with h | ⟨q₁, q₂, rfl, h⟩
  · exact .inl fun f hf => mem_append_left _ (h f hf)
  · obtain ⟨rest, pushed, hq, rfl⟩ := ha
    cases x with
    | none =>
      right
      refine ⟨q₁, q₂ ++ pushed, ?_, fun f hf => ?_⟩
      · rw [Option.toList_none, nil_append] at hq
        rw [← hq, append_assoc, cons_append]
      · simpa using h f hf
    | some y =>
      cases q₁ with
      | nil =>
        -- the entry taken is `r` itself: nothing is in front of it any more
        left
        intro f hf
        have := h f hf
        simp only [not_mem_nil, or_false] at this
        exact mem_append_left _ this
      | cons z q₁ =>
        obtain ⟨rfl, rfl⟩ := hq
        right
        refine ⟨q₁, q₂ ++ pushed, by simp, fun f hf => ?_⟩
        have := h f hf
        simp only [mem_cons] at this
        simp only [Option.toList_some, mem_append, mem_singleton]
        tauto

theorem InFront.all_of_head (h : InFront entries r log (r :: q)) (hn : (r :: q).Nodup) :
    ∀ f ∈ entries, f ∈ log := by
  rcases h with h | ⟨q₁, q₂, hq, h⟩
  · exact h
  · cases q₁ with
    | nil => exact fun f hf => (h f hf).resolve_right (by simp)
    | cons =>
      obtain ⟨rfl, rfl⟩ := hq
      simp at hn

end order

end Netatalk
