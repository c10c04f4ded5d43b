import Mathlib.Data.Int.Order.Basic

/-! # POSIX record locks of one process on one file

A process holds at most one lock on each byte of a file, and a granted request replaces the
state of exactly the bytes of its range: locks of one process do not nest.  `LockMap` is the
kernel's record for the process, `LockMap.set` a granted request over the bytes `lo..hi`.

`unionMap l` is the map that a table `l` of ranges stands for: a byte is write locked when a
write range covers it, read locked when only read ranges do.  It is what a lock table kept
beside the kernel has to agree with. -/

namespace Netatalk

/-- State of one byte. -/
inductive Held where
  | free
  | rd
  | wr
deriving DecidableEq, Repr

/-- Locks of the process, byte by byte. -/
abbrev LockMap := ℤ → Held

variable {b hi lo : ℤ} {l : List Span} {x y : Span}

namespace LockMap

/-- No byte is locked. -/
def empty : LockMap := fun _ => .free

/-- A granted request: the bytes `lo..hi` take the state `s`, the others keep theirs. -/
def set (K : LockMap) (lo hi : ℤ) (s : Held) : LockMap :=
  fun b => if lo ≤ b ∧ b ≤ hi then s else K b

theorem set_in (K : LockMap) (s : Held) (h₁ : lo ≤ b) (h₂ : b ≤ hi) :
    K.set lo hi s b = s := by simp [set, h₁, h₂]

theorem set_out (K : LockMap) (s : Held) (h : b < lo ∨ hi < b) : K.set lo hi s b = K b := by
  unfold set
  rw [if_neg]
  omega

end LockMap

/-- A range of a lock table: its first and last byte, and whether it is a write lock. -/
structure Span where
  lo : ℤ
  hi : ℤ
  wr : Bool
deriving DecidableEq, Repr

namespace Span

/-- The range holds the byte. -/
def Covers (x : Span) (b : ℤ) : Prop := x.lo ≤ b ∧ b ≤ x.hi

instance (x : Span) (b : ℤ) : Decidable (x.Covers b) := inferInstanceAs (Decidable (_ ∧ _))

/-- The state a range gives its bytes. -/
def state (x : Span) : Held := if x.wr then .wr else .rd

/-- Two ranges share a byte only when both are read locks. -/
def Shares (x y : Span) : Prop := ∀ b, x.Covers b → y.Covers b → x.wr = false ∧ y.wr = false

end Span

/-- The lock map of a table of ranges. -/
def unionMap (l : List Span) : LockMap := fun b =>
  if ∃ x ∈ l, x.Covers b ∧ x.wr = true then .wr
  else if ∃ x ∈ l, x.Covers b then .rd else .free

theorem unionMap_wr_iff (l : List Span) (b : ℤ) :
    unionMap l b = .wr ↔ ∃ x ∈ l, x.Covers b ∧ x.wr = true := by
  unfold unionMap
  split_ifs with h₁ h₂ <;> simp_all

theorem unionMap_rd_iff (l : List Span) (b : ℤ) :
    unionMap l b = .rd ↔ (∃ x ∈ l, x.Covers b) ∧ ∀ x ∈ l, x.Covers b → x.wr = false := by
  unfold unionMap
  split_ifs with h₁ h₂
  · obtain ⟨x, hx, hc, hw⟩ := h₁
    constructor
    · rintro ⟨⟩
    · intro h
      rw [h.2 x hx hc] at hw
      cases hw
  · refine ⟨fun _ => ⟨h₂, fun x hx hc => ?_⟩, fun _ => rfl⟩
    by_contra hw
    exact h₁ ⟨x, hx, hc, by simpa using hw⟩
  · exact ⟨fun h => (by cases h), fun h => absurd h.1 h₂⟩

theorem unionMap_free_iff (l : List Span) (b : ℤ) :
    unionMap l b = .free ↔ ∀ x ∈ l, ¬ x.Covers b := by
  unfold unionMap
  split_ifs with h₁ h₂
  · obtain ⟨x, hx, hc, _⟩ := h₁
    exact ⟨fun h => (by cases h), fun h => absurd hc (h x hx)⟩
  · obtain ⟨x, hx, hc⟩ := h₂
    exact ⟨fun h => (by cases h), fun h => absurd hc (h x hx)⟩
  · exact ⟨fun _ x hx hc => h₂ ⟨x, hx, hc⟩, fun _ => rfl⟩

@[simp] theorem unionMap_nil : unionMap [] = LockMap.empty := by
  funext b
  exact (unionMap_free_iff [] b).mpr (by simp)

theorem unionMap_congr {l' : List Span} (h : ∀ x, x ∈ l ↔ x ∈ l') : unionMap l = unionMap l' := by
  funext b
  unfold unionMap
  simp only [h]

theorem unionMap_cons_out (x : Span) (l : List Span) (h : ¬ x.Covers b) :
    unionMap (x :: l) b = unionMap l b := by
  unfold unionMap
  simp [h]

theorem unionMap_cons_in (hs : ∀ y ∈ l, x.Shares y)
    (h : x.Covers b) : unionMap (x :: l) b = x.state := by
  unfold Span.state
  cases hw : x.wr with
  | true =>
    rw [if_pos rfl, unionMap_wr_iff]
    exact ⟨x, by simp, h, hw⟩
  | false =>
    rw [if_neg (by simp), unionMap_rd_iff]
    refine ⟨⟨x, by simp, h⟩, ?_⟩
    intro y hy hc
    rcases List.mem_cons.mp hy with rfl | hy
    · exact hw
    · exact (hs y hy b h hc).2

/-- Granting a request over a range that shares only read bytes with the table is what
adding the range to the table asks for. -/
theorem set_unionMap (hs : ∀ y ∈ l, x.Shares y) :
    (unionMap l).set x.lo x.hi x.state = unionMap (x :: l) := by
  funext b
  by_cases h : x.Covers b
  · rw [unionMap_cons_in hs h, LockMap.set_in _ _ h.1 h.2]
  · rw [unionMap_cons_out x l h, LockMap.set_out]
    unfold Span.Covers at h
    omega

/-- Granting over a range of the table replaces that range. -/
theorem set_unionMap_cons (hlo : x.lo = y.lo) (hhi : x.hi = y.hi)
    (hs : ∀ z ∈ l, x.Shares z) : (unionMap (y :: l)).set x.lo x.hi x.state = unionMap (x :: l) := by
  rw [← set_unionMap hs]
  funext b
  by_cases h : x.Covers b
  · rw [LockMap.set_in _ _ h.1 h.2, LockMap.set_in _ _ h.1 h.2]
  · have hy : ¬ y.Covers b := by
      unfold Span.Covers at h ⊢
      rw [← hlo, ← hhi]
      exact h
    have hout : b < x.lo ∨ x.hi < b := by
      unfold Span.Covers at h
      omega
    rw [LockMap.set_out _ _ hout, LockMap.set_out _ _ hout, unionMap_cons_out y l hy]

/-- Freeing the bytes of a range that no other range covers is what dropping it from the
table asks for. -/
theorem free_unionMap (hs : ∀ y ∈ l, x.Shares y) (b : ℤ) :
    unionMap l b = if x.Covers b ∧ ∀ y ∈ l, ¬ y.Covers b then .free else unionMap (x :: l) b := by
  split_ifs with h
  · exact (unionMap_free_iff l b).mpr h.2
  · by_cases hx : x.Covers b
    · -- a survivor covers the byte, so `x` and every survivor there are read locks
      have hy : ∃ y ∈ l, y.Covers b := by
        by_contra hne
        exact h ⟨hx, fun y hy hc => hne ⟨y, hy, hc⟩⟩
      obtain ⟨y, hy, hc⟩ := hy
      rw [unionMap_cons_in hs hx, Span.state, (hs y hy b hx hc).1]
      rw [if_neg (by simp), unionMap_rd_iff]
      exact ⟨⟨y, hy, hc⟩, fun z hz hzc => (hs z hz b hx hzc).2⟩
    · rw [unionMap_cons_out x l hx]

end Netatalk
