import Netatalk.Bytes

/-! # A read-ahead window

A buffer of fixed size with two offsets: the bytes from `start` to `eof` have been received and not
been read yet.  Input is stored at `eof`, a reader takes from `start`, and an empty window may be
rewound to the start of the buffer. -/

namespace Netatalk

open List

/-- A buffer with the offsets of the bytes received and not yet read. -/
structure Window where
  buffer : List UInt8
  start : ℕ
  eof : ℕ
deriving DecidableEq

variable {bs : List UInt8}

namespace Window

variable {w : Window}

/-- The offsets lie in order inside the buffer. -/
structure Valid (w : Window) : Prop where
  start_le : w.start ≤ w.eof
  eof_le : w.eof ≤ w.buffer.length

/-- The bytes received and not yet read. -/
def unread (w : Window) : List UInt8 := (w.buffer.take w.eof).drop w.start

/-- The free bytes after `eof`. -/
def room (w : Window) : ℕ := w.buffer.length - w.eof

/-- What a copy of `n` bytes from `start` on reads. -/
def peekAt (w : Window) (n : ℕ) : List UInt8 := (w.buffer.drop w.start).take n

/-- Store received bytes at `eof`. -/
def fill (w : Window) (bs : List UInt8) : Window :=
  { w with buffer := Bytes.splice w.buffer w.eof bs, eof := w.eof + bs.length }

/-- Move `start` past `n` bytes. -/
def advance (w : Window) (n : ℕ) : Window := { w with start := w.start + n }

/-- Both offsets back at the start of the buffer. -/
def rewind (w : Window) : Window := { w with start := 0, eof := 0 }

theorem length_unread (h : w.Valid) : w.unread.length = w.eof - w.start := by
  have := h.eof_le
  rw [unread, length_drop, length_take]
  omega

theorem peekAt_eq (n : ℕ) (hn : n ≤ w.eof - w.start) : w.peekAt n = w.unread.take n := by
  rw [peekAt, unread, drop_take, take_take, min_eq_left hn]

section
variable (h : w.Valid) (hb : bs.length ≤ w.room)
include h hb

theorem length_buffer_fill : (w.fill bs).buffer.length = w.buffer.length := by
  have h₂ := h.eof_le
  rw [room] at hb
  exact Bytes.length_splice (by omega)

theorem valid_fill : (w.fill bs).Valid := by
  have h₁ := h.start_le
  have h₂ := h.eof_le
  refine ⟨Nat.le_add_right_of_le h₁, ?_⟩
  rw [length_buffer_fill h hb]
  rw [room] at hb
  show w.eof + bs.length ≤ w.buffer.length
  omega

theorem unread_fill : (w.fill bs).unread = w.unread ++ bs := by
  have h₁ := h.start_le
  have h₂ := h.eof_le
  have hfit : w.eof + bs.length ≤ w.buffer.length := by
    rw [room] at hb
    omega
  have hlen : w.start ≤ (w.buffer.take w.eof).length := by
    rw [length_take]
    omega
  rw [unread, unread, fill, Bytes.take_splice hfit, drop_append_of_le_length hlen]

end

theorem valid_advance (h : w.Valid) {n : ℕ} (hn : n ≤ w.eof - w.start) : (w.advance n).Valid := by
  have h₁ := h.start_le
  exact ⟨show w.start + n ≤ w.eof by omega, h.eof_le⟩

theorem unread_advance (n : ℕ) : (w.advance n).unread = w.unread.drop n := by
  rw [unread, unread, drop_drop]
  rfl

theorem unread_eq_nil (h : w.eof ≤ w.start) : w.unread = [] := by
  rw [unread, drop_eq_nil_iff, length_take]
  omega

section rewind
variable {p : Prop} [Decidable p]

theorem valid_rewind (h : w.Valid) : (if p then w.rewind else w).Valid := by
  split_ifs
  · exact ⟨le_rfl, zero_le⟩
  · exact h

theorem length_buffer_rewind : (if p then w.rewind else w).buffer.length = w.buffer.length := by
  split_ifs <;> rfl

theorem unread_rewind (hp : p → w.eof ≤ w.start) :
    (if p then w.rewind else w).unread = w.unread := by
  split_ifs with h
  · rw [unread_eq_nil (hp h)]
    rfl
  · rfl

end rewind

end Window

end Netatalk
