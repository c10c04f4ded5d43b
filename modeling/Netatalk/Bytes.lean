import Mathlib

/-! # Words and ranges in a byte buffer

A buffer is the list of its bytes.  Numbers are stored in fixed width, least significant byte
first (`leBytes`, `leNat`), and read in either order (`beNat`).  `read` and `write` move a range
of bytes and are undefined where the range leaves the buffer. -/

namespace Netatalk.Bytes

open List

/-! ### Words -/

/-- The `n` low bytes of a number, least significant first. -/
def leBytes : ℕ → ℕ → List UInt8
  | 0, _ => []
  | n + 1, v => UInt8.ofNat v :: leBytes n (v / 256)

/-- The number whose bytes these are, least significant first. -/
def leNat : List UInt8 → ℕ
  | [] => 0
  | b :: bs => b.toNat + 256 * leNat bs

/-- The number whose bytes these are, most significant first. -/
def beNat (bs : List UInt8) : ℕ := leNat bs.reverse

@[simp] theorem length_leBytes (n v : ℕ) : (leBytes n v).length = n := by
  induction n generalizing v with
  | zero => rfl
  | succ n ih => rw [leBytes, length_cons, ih]

theorem leNat_leBytes (n v : ℕ) : leNat (leBytes n v) = v % 256 ^ n := by
  induction n generalizing v with
  | zero => rw [leBytes, leNat, pow_zero, Nat.mod_one]
  | succ n ih =>
    rw [leBytes, leNat, ih, Nat.pow_succ', Nat.mod_mul, UInt8.toNat_ofNat']

theorem leBytes_leNat (bs : List UInt8) : leBytes bs.length (leNat bs) = bs := by
  induction bs with
  | nil => rfl
  | cons b bs ih =>
    have hb := UInt8.toNat_lt b
    have hlow : UInt8.ofNat (b.toNat + 256 * leNat bs) = b := by
      apply UInt8.toNat_inj.mp
      rw [UInt8.toNat_ofNat']
      omega
    have hhigh : (b.toNat + 256 * leNat bs) / 256 = leNat bs := by omega
    rw [length_cons, leBytes, leNat, hlow, hhigh, ih]

theorem leNat_lt (bs : List UInt8) : leNat bs < 256 ^ bs.length := by
  rw [← leBytes_leNat bs, leNat_leBytes, length_leBytes]
  exact Nat.mod_lt _ (Nat.pow_pos (by decide))

theorem leNat_append (a b : List UInt8) : leNat (a ++ b) = leNat a + 256 ^ a.length * leNat b := by
  induction a with
  | nil => rw [nil_append, leNat, length_nil, pow_zero, zero_add, one_mul]
  | cons x a ih =>
    rw [cons_append, leNat, leNat, ih, length_cons, Nat.pow_succ', mul_add,
      mul_assoc, add_assoc]

/-- The `n` low bytes of a number, most significant first. -/
def beBytes (n v : ℕ) : List UInt8 := (leBytes n v).reverse

@[simp] theorem length_beBytes (n v : ℕ) : (beBytes n v).length = n := by
  rw [beBytes, length_reverse, length_leBytes]

theorem beNat_beBytes (n v : ℕ) : beNat (beBytes n v) = v % 256 ^ n := by
  rw [beNat, beBytes, reverse_reverse, leNat_leBytes]

theorem beNat_beBytes_of_lt {n v : ℕ} (h : v < 256 ^ n) : beNat (beBytes n v) = v := by
  rw [beNat_beBytes, Nat.mod_eq_of_lt h]

variable {off n : ℕ} {buf bs : List UInt8}

theorem beBytes_beNat (h : bs.length = n) : beBytes n (beNat bs) = bs := by
  rw [beBytes, beNat, ← h, ← length_reverse, leBytes_leNat, reverse_reverse]

theorem beNat_lt (h : bs.length ≤ n) : beNat bs < 256 ^ n := by
  refine (leNat_lt _).trans_le ?_
  rw [length_reverse]
  exact Nat.pow_le_pow_right (by decide) h

/-! ### Ranges -/

/-- The `n` bytes from an offset on, inside the buffer. -/
def read (buf : List UInt8) (off n : ℕ) : Option (List UInt8) :=
  if off + n ≤ buf.length then some ((buf.drop off).take n) else none

/-- The buffer with a range overwritten. -/
def splice (buf : List UInt8) (off : ℕ) (bs : List UInt8) : List UInt8 :=
  buf.take off ++ (bs ++ buf.drop (off + bs.length))

/-- The buffer with a range overwritten, inside the buffer. -/
def write (buf : List UInt8) (off : ℕ) (bs : List UInt8) : Option (List UInt8) :=
  if off + bs.length ≤ buf.length then some (splice buf off bs) else none

theorem read_isSome (h : off + n ≤ buf.length) :
    ∃ bs, read buf off n = some bs ∧ bs.length = n := by
  refine ⟨(buf.drop off).take n, if_pos h, ?_⟩
  rw [length_take, length_drop]
  omega

theorem read_eq_some :
    read buf off n = some bs ↔ off + n ≤ buf.length ∧ (buf.drop off).take n = bs := by
  unfold read
  split_ifs with h <;> simp [h]

theorem read_segment (a bs c : List UInt8) :
    read (a ++ (bs ++ c)) a.length bs.length = some bs := by
  rw [read, if_pos (by simp only [length_append]; omega), drop_left, take_left]

/-- The bytes `bs` stand in the buffer from an offset on. -/
def BytesAt (buf : List UInt8) (off : ℕ) (bs : List UInt8) : Prop :=
  ∃ a c, buf = a ++ (bs ++ c) ∧ a.length = off

section bytesAt
variable {buf a b : List UInt8} {off : ℕ}

theorem BytesAt.le (h : BytesAt buf off a) : off + a.length ≤ buf.length := by
  obtain ⟨x, c, rfl, rfl⟩ := h
  rw [length_append, length_append]
  omega

theorem BytesAt.left (h : BytesAt buf off (a ++ b)) : BytesAt buf off a := by
  obtain ⟨x, c, rfl, hx⟩ := h
  exact ⟨x, b ++ c, by rw [append_assoc a], hx⟩

theorem BytesAt.right (h : BytesAt buf off (a ++ b)) : BytesAt buf (off + a.length) b := by
  obtain ⟨x, c, rfl, rfl⟩ := h
  exact ⟨x ++ a, c, by simp only [append_assoc], length_append⟩

theorem BytesAt.read (h : BytesAt buf off a) : Bytes.read buf off a.length = some a := by
  obtain ⟨x, c, rfl, rfl⟩ := h
  exact read_segment x a c

end bytesAt

theorem exists_segment (h : off + n ≤ buf.length) :
    ∃ a x c, buf = a ++ (x ++ c) ∧ a.length = off ∧ x.length = n := by
  refine ⟨buf.take off, (buf.drop off).take n, (buf.drop off).drop n, ?_, ?_, ?_⟩
  · rw [take_append_drop, take_append_drop]
  · rw [length_take]
    omega
  · rw [length_take, length_drop]
    omega

theorem splice_segment {a x : List UInt8} (c : List UInt8) (h : x.length = bs.length) :
    splice (a ++ (x ++ c)) a.length bs = a ++ (bs ++ c) := by
  rw [splice, take_left, ← drop_drop, drop_left, ← h, drop_left]

theorem splice_self (h : off + n ≤ buf.length) : splice buf off ((buf.drop off).take n) = buf := by
  obtain ⟨a, x, c, rfl, rfl, rfl⟩ := exists_segment h
  rw [drop_left, take_left, splice_segment c rfl]

theorem splice_zero : splice buf 0 bs = bs ++ buf.drop bs.length := by
  rw [splice, take_zero, nil_append, zero_add]

theorem slice_eq_iff {a b : List UInt8} :
    (a.drop off).take n = (b.drop off).take n ↔ ∀ i, off ≤ i → i < off + n → a[i]? = b[i]? := by
  simp only [List.ext_getElem?_iff, getElem?_take, getElem?_drop]
  constructor
  · intro h i hle hlt
    have := h (i - off)
    rwa [if_pos (by omega), if_pos (by omega), Nat.add_sub_cancel' hle] at this
  · intro h i
    split_ifs with hi
    · exact h (off + i) (by omega) (by omega)
    · rfl

section bounded
variable {buf bs : List UInt8} {off : ℕ} (h : off + bs.length ≤ buf.length)
include h

theorem length_splice : (splice buf off bs).length = buf.length := by
  simp only [splice, length_append, length_take, length_drop]
  omega

theorem take_splice : (splice buf off bs).take (off + bs.length) = buf.take off ++ bs := by
  rw [splice, ← append_assoc, take_left']
  rw [length_append, length_take]
  omega

theorem drop_splice {m : ℕ} (hm : off + bs.length ≤ m) :
    (splice buf off bs).drop m = buf.drop m := by
  have hlen : (buf.take off ++ bs).length = off + bs.length := by
    rw [length_append, length_take]
    omega
  rw [splice, ← append_assoc, drop_append, hlen, drop_drop, Nat.add_sub_cancel' hm,
    drop_of_length_le (by omega), nil_append]

end bounded

section sideBySide
variable {buf a b : List UInt8} {off : ℕ} (h : off + (a ++ b).length ≤ buf.length)
include h

theorem exists_segments : ∃ pre y z rest, buf = pre ++ (y ++ (z ++ rest)) ∧ pre.length = off ∧
    y.length = a.length ∧ z.length = b.length ∧
    splice buf off (a ++ b) = pre ++ (a ++ b ++ rest) := by
  obtain ⟨pre, x, rest, rfl, rfl, hx⟩ := exists_segment h
  have hlen := hx
  rw [length_append] at hlen
  refine ⟨pre, x.take a.length, x.drop a.length, rest, ?_, rfl, ?_, ?_, splice_segment rest hx⟩
  · rw [← append_assoc (x.take _), take_append_drop]
  · rw [length_take]
    omega
  · rw [length_drop]
    omega

theorem splice_append : splice (splice buf off a) (off + a.length) b = splice buf off (a ++ b) := by
  obtain ⟨pre, y, z, rest, rfl, rfl, hy, hz, hone⟩ := exists_segments h
  rw [hone, splice_segment (z ++ rest) hy,
    ← append_assoc pre a, ← length_append, splice_segment rest hz]
  simp only [append_assoc]

theorem splice_append_right :
    splice (splice buf (off + a.length) b) off a = splice buf off (a ++ b) := by
  obtain ⟨pre, y, z, rest, rfl, rfl, hy, hz, hone⟩ := exists_segments h
  have hfirst : splice (pre ++ (y ++ (z ++ rest))) (pre.length + a.length) b =
      pre ++ (y ++ (b ++ rest)) := by
    rw [← hy, ← length_append, ← append_assoc pre y, splice_segment rest hz,
      append_assoc]
  rw [hfirst, splice_segment (b ++ rest) hy, hone, append_assoc a]

end sideBySide

/-- A range overwritten twice from the same offset. -/
theorem splice_splice {cs : List UInt8} (h : off + bs.length ≤ buf.length)
    (hc : cs.length ≤ bs.length) :
    splice (splice buf off bs) off cs = splice buf off (cs ++ bs.drop cs.length) := by
  obtain ⟨pre, x, rest, rfl, rfl, hx⟩ := exists_segment h
  have hcs : (bs.take cs.length).length = cs.length := by
    rw [length_take]
    omega
  have hall : x.length = (cs ++ bs.drop cs.length).length := by
    rw [length_append, length_drop]
    omega
  rw [splice_segment rest hx, splice_segment rest hall]
  nth_rewrite 1 [← take_append_drop cs.length bs]
  rw [append_assoc, splice_segment _ hcs, append_assoc]

end Netatalk.Bytes
