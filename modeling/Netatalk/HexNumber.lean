import Mathlib.Data.Nat.Digits.Lemmas

/-! # Numbers in uppercase hexadecimal

`print n` are the bytes of `n` in uppercase hexadecimal without leading zeros (none for 0), and
`scan` reads at most a given number of digits.  `scan_print` reads a printed number back, whatever
follows it that is not a digit. -/

namespace Netatalk.HexNumber

open List

/-- The digits `0` to `9` and `A` to `F`. -/
def isDigit (c : UInt8) : Bool := (48 ≤ c && c ≤ 57) || (65 ≤ c && c ≤ 70)

def value (c : UInt8) : ℕ := if 48 ≤ c ∧ c ≤ 57 then c.toNat - 48 else c.toNat + 10 - 65

def digit (d : ℕ) : UInt8 := if d < 10 then (48 + d).toUInt8 else (55 + d).toUInt8

variable {d n room : ℕ} {rest : List UInt8}

theorem isDigit_digit (hd : d < 16) : isDigit (digit d) = true := by
  revert d
  decide

theorem value_digit (hd : d < 16) : value (digit d) = d := by
  revert d
  decide

/-- A positive number as `%X` prints it. -/
def print (n : ℕ) : List UInt8 := (Nat.digits 16 n).reverse.map digit

theorem length_print_le {k : ℕ} (h : n < 16 ^ k) : (print n).length ≤ k := by
  rw [print, length_map, length_reverse]
  exact (Nat.digits_length_le_iff (by decide) n).mpr h

theorem head_print_ne (n : ℕ) : (print n).head? ≠ some (digit 0) := by
  rw [print, head?_map, head?_reverse]
  intro h
  obtain ⟨d, hlast, hd⟩ := Option.map_eq_some_iff.mp h
  obtain ⟨hne, rfl⟩ := mem_getLast?_eq_getLast hlast
  have hlt := Nat.digits_lt_base (by decide) (getLast_mem hne)
  have hzero : (Nat.digits 16 n).getLast hne = 0 := by
    rw [← value_digit hlt, hd, value_digit (by decide)]
  exact Nat.getLast_digit_ne_zero 16 (Nat.digits_ne_nil_iff_ne_zero.mp hne) hzero

/-- The digits at the front of the bytes, at most `room`, appended to a number. -/
def scan : ℕ → ℕ → List UInt8 → ℕ × List UInt8
  | 0, acc, bs => (acc, bs)
  | _ + 1, acc, [] => (acc, [])
  | room + 1, acc, c :: bs =>
    if isDigit c then scan room (acc * 16 + value c) bs else (acc, c :: bs)

theorem scan_of_head {acc : ℕ} {bs : List UInt8} (h : ∀ c ∈ bs.head?, isDigit c = false) :
    scan room acc bs = (acc, bs) := by
  cases room with
  | zero => rfl
  | succ =>
    cases bs with
    | nil => rfl
    | cons c => simp [scan, h c rfl]

theorem scan_map_digit {ds : List ℕ} (hds : ∀ d ∈ ds, d < 16) (hroom : ds.length ≤ room)
    (acc : ℕ) (hrest : ∀ c ∈ rest.head?, isDigit c = false) :
    scan room acc (ds.map digit ++ rest) = (ds.foldl (fun acc d => acc * 16 + d) acc, rest) := by
  induction ds generalizing room acc with
  | nil => exact scan_of_head hrest
  | cons d ds ih =>
    obtain ⟨room, rfl⟩ := Nat.exists_eq_add_of_le' hroom
    obtain ⟨hd, hds⟩ := forall_mem_cons.mp hds
    rw [map_cons, cons_append, length_cons, ← add_assoc, scan,
      if_pos (isDigit_digit hd), value_digit hd]
    exact ih hds (Nat.le_add_left _ _) _

theorem foldl_digits (n : ℕ) :
    (Nat.digits 16 n).reverse.foldl (fun acc d => acc * 16 + d) 0 = n := by
  rw [foldl_reverse]
  conv_rhs => rw [← Nat.ofDigits_digits 16 n]
  rw [Nat.ofDigits_eq_foldr]
  congr
  funext d acc
  simp only [Nat.cast_id]
  ring

/-- A printed number is read back. -/
theorem scan_print (hn : n < 16 ^ room)
    (hrest : ∀ c ∈ rest.head?, isDigit c = false) : scan room 0 (print n ++ rest) = (n, rest) := by
  have hlen : (Nat.digits 16 n).reverse.length ≤ room := by
    rw [length_reverse]
    exact (Nat.digits_length_le_iff (by decide) n).mpr hn
  rw [print, scan_map_digit (fun d hd => Nat.digits_lt_base (by decide) (mem_reverse.mp hd))
    hlen 0 hrest, foldl_digits]

end Netatalk.HexNumber
