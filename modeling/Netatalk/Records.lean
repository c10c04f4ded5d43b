import Mathlib.Data.List.Basic

/-! # Named records in a byte buffer

A record is a length byte, a name of that length, a zero byte and a mark.  Records lie one after the
other from the start of a buffer, and a zero byte in the place of a length ends them.  The lemmas
say what a reader finds at the start of a record, whatever lies before and behind it. -/

namespace Netatalk

open List

/-- A name with its mark. -/
structure Rec where
  name : List UInt8
  mark : UInt8
deriving DecidableEq

namespace Rec

def bytes (r : Rec) : List UInt8 := UInt8.ofNat r.name.length :: (r.name ++ [0, r.mark])

/-- The length byte can tell the length of the name. -/
structure Fits (r : Rec) : Prop where
  pos : 0 < r.name.length
  le : r.name.length ≤ 255

@[simp] theorem length_bytes (r : Rec) : r.bytes.length = r.name.length + 3 := by
  simp [bytes]

variable (a c : List UInt8) (r : Rec)

theorem getD_length : (a ++ (r.bytes ++ c)).getD a.length 0 = UInt8.ofNat r.name.length := by
  simp [bytes]

theorem toNat_length {r : Rec} (h : r.Fits) :
    (UInt8.ofNat r.name.length).toNat = r.name.length := by
  have := h.le
  rw [UInt8.toNat_ofNat']
  omega

theorem take_name : ((a ++ (r.bytes ++ c)).drop (a.length + 1)).take r.name.length = r.name := by
  rw [← drop_drop, drop_left, bytes, cons_append, drop_succ_cons,
    drop_zero, append_assoc, take_left]

theorem split_mark : a ++ (r.bytes ++ c) =
    (a ++ UInt8.ofNat r.name.length :: (r.name ++ [0])) ++ r.mark :: c := by
  simp [bytes]

theorem length_mark :
    (a ++ UInt8.ofNat r.name.length :: (r.name ++ [0])).length = a.length + r.name.length + 2 := by
  simp only [length_append, length_cons, length_nil]
  omega

theorem getD_mark : (a ++ (r.bytes ++ c)).getD (a.length + r.name.length + 2) 0 = r.mark := by
  rw [split_mark, ← length_mark]
  simp

theorem set_mark (m : UInt8) : (a ++ (r.bytes ++ c)).set (a.length + r.name.length + 2) m =
      a ++ ({ r with mark := m }.bytes ++ c) := by
  rw [split_mark, ← length_mark, set_append_right _ _ (Nat.le_refl _), Nat.sub_self,
    set_cons_zero, split_mark]

/-- The bytes of a list of records. -/
def listBytes (l : List Rec) : List UInt8 := l.flatMap bytes

@[simp] theorem listBytes_nil : listBytes [] = [] := rfl

@[simp] theorem listBytes_cons (l : List Rec) : listBytes (r :: l) = r.bytes ++ listBytes l := rfl

@[simp] theorem listBytes_append (l l' : List Rec) :
    listBytes (l ++ l') = listBytes l ++ listBytes l' := flatMap_append

end Rec

end Netatalk
