import Mathlib

/-! # The files of the desktop database

`dtfile` of `etc/afpd/desktop.c`, which names the file of a creator.  A byte that is not printable,
or a slash, is spelled as two hex digits, but the digits themselves are printable, so a name does
not tell an escape from the digits it is made of.  Where one creator has an escape and the other
prints its first digit, the second runs a digit behind the first, until it has an escape where the
first prints the last digit (`collide`); that is the only way to share a file (`dtfile_same_iff`).
-/

namespace Netatalk.Dtfile

open List hiding Vector

def maxpathlen : ℕ := 4096

def hexdig (n : ℕ) : UInt8 := if n < 10 then (48 + n).toUInt8 else (87 + n).toUInt8

/-- `"/" APPLEDESKTOP "/"`. -/
def appledesktop : List UInt8 := "/.AppleDesktop/".toList.map fun c => c.toNat.toUInt8

-- what `isprint` answers depends on the locale
variable (isprint : UInt8 → Bool)

def escaped (b : UInt8) : Bool := !isprint b || b == 47

/-- The digits of a byte. -/
def hi (b : UInt8) : UInt8 := hexdig (b.toNat / 16)

@[inherit_doc hi] def lo (b : UInt8) : UInt8 := hexdig (b.toNat % 16)

def spell (b : UInt8) : List UInt8 := if escaped isprint b then [hi b, lo b] else [b]

/-- The name of a creator. -/
def spelled (creator : List UInt8) : List UInt8 := creator.flatMap (spell isprint)

def strlcat (dst src : List UInt8) : List UInt8 := dst ++ src.take (maxpathlen - dst.length)

def dtfile (vDbpath : Option (List UInt8)) (creator : Vector UInt8 4) (ext : List UInt8) :
    Option (List UInt8) := do
  let path := (← vDbpath) ++ appledesktop
  if maxpathlen + 1 ≤ path.length then none
  else return strlcat (path ++ spell isprint creator[0] ++ 47 :: spelled isprint creator.toList) ext

/-- Where the first string has printed `d` already, the second prints it next, and what the first
prints last at each byte the second prints first at the following one.  The second catches up with
an escape where the first has none; were it two digits behind, three bytes would not suffice. -/
def shifted (d : UInt8) : List UInt8 → List UInt8 → Bool
  | a :: s, b :: t =>
    match escaped isprint a, escaped isprint b with
    | true, true => d == hi b && hi a == lo b && shifted (lo a) s t
    | false, false => d == b && shifted a s t
    | false, true => d == hi b && a == lo b && s == t
    | true, false => false
  | _, _ => false

/-- The strings are equal up to an escape of one where the other prints its first digit, and shifted
from there on. -/
def collide : List UInt8 → List UInt8 → Bool
  | a :: s, b :: t =>
    match escaped isprint a, escaped isprint b with
    | true, false => hi a == b && shifted isprint (lo a) s t
    | false, true => a == hi b && shifted isprint (lo b) t s
    | true, true | false, false => a == b && collide s t
  | _, _ => false

variable {isprint} {a b d : UInt8} {s t : List UInt8}

theorem length_spell_le (b : UInt8) : (spell isprint b).length ≤ 2 := by
  unfold spell
  split_ifs <;> simp

theorem length_spell_pos (b : UInt8) : 1 ≤ (spell isprint b).length := by
  unfold spell
  split_ifs <;> simp

theorem hexdig_inj : ∀ m < 16, ∀ n < 16, hexdig m = hexdig n → m = n := by decide

theorem hexdig_ne_slash : ∀ n < 16, hexdig n ≠ 47 := by decide

/-- The spelling of a byte tells it, if it is known whether it is escaped. -/
theorem spell_inj (he : escaped isprint a = escaped isprint b)
    (h : spell isprint a ++ s = spell isprint b ++ t) : a = b ∧ s = t := by
  have ha := a.toNat_lt
  have hb := b.toNat_lt
  rw [spell, spell, he] at h
  split_ifs at h
  · simp only [cons_append, nil_append, cons.injEq] at h
    obtain ⟨hhi, hlo, rfl⟩ := h
    have := hexdig_inj _ (by omega) _ (by omega) hhi
    have := hexdig_inj _ (by omega) _ (by omega) hlo
    exact ⟨UInt8.toNat_inj.mp (by omega), rfl⟩
  · simpa using h

theorem spelled_cons : spelled isprint (a :: s) = spell isprint a ++ spelled isprint s := rfl

theorem length_spelled_le : (spelled isprint s).length ≤ 2 * s.length := by
  have h := sum_le_card_nsmul (s.map (length ∘ spell isprint)) 2 (by simp [length_spell_le])
  simpa [spelled, length_flatMap, Function.comp_def, mul_comm] using h

theorem length_le_spelled : s.length ≤ (spelled isprint s).length := by
  have h := card_nsmul_le_sum (s.map (length ∘ spell isprint)) 1 (by simp [length_spell_pos])
  simpa [spelled, length_flatMap, Function.comp_def] using h

theorem spelled_inj_of_le_one (hlen : s.length = t.length) (hle : s.length ≤ 1) :
    spelled isprint s = spelled isprint t ↔ s = t := by
  refine ⟨fun h => ?_, fun h => h ▸ rfl⟩
  match s, t, hlen, hle with
  | [], [], _, _ => rfl
  | [a], [b], _, _ =>
    have he : escaped isprint a = escaped isprint b := by
      have := congrArg length h
      cases ha : escaped isprint a <;> cases hb : escaped isprint b <;>
        simp [spelled, spell, ha, hb] at this ⊢
    rw [(spell_inj he h).1]

/-- At most two bytes before the end, the second string can catch up only once. -/
theorem shifted_iff (hlen : s.length = t.length) (hle : s.length ≤ 2) :
    d :: spelled isprint s = spelled isprint t ↔ shifted isprint d s t = true := by
  induction s generalizing d t with
  | nil =>
    obtain rfl := length_eq_zero_iff.mp hlen.symm
    simp [spelled, shifted]
  | cons a s ih =>
    obtain ⟨b, t, rfl⟩ := exists_cons_of_length_eq_add_one hlen.symm
    simp only [length_cons, Nat.add_right_cancel_iff] at hlen hle
    have hrest (d : UInt8) := @ih d t hlen (by omega)
    rw [shifted, spelled_cons, spelled_cons]
    cases ha : escaped isprint a <;> cases hb : escaped isprint b
    · simp [spell, ha, hb, hrest]
    · simp [spell, ha, hb, spelled_inj_of_le_one hlen (by omega), and_assoc]
    · -- two digits behind, with at most one byte left
      have hs := @length_le_spelled isprint s
      have ht := @length_spelled_le isprint t
      refine iff_of_false (fun h => ?_) (by simp)
      have := congrArg length h
      simp [spell, ha, hb] at this
      omega
    · simp [spell, ha, hb, hrest, and_assoc]

theorem spelled_eq_iff (hlen : s.length = t.length) (hle : s.length ≤ 3) :
    spelled isprint s = spelled isprint t ↔ s = t ∨ collide isprint s t = true := by
  induction s generalizing t with
  | nil =>
    obtain rfl := length_eq_zero_iff.mp hlen.symm
    simp
  | cons a s ih =>
    obtain ⟨b, t, rfl⟩ := exists_cons_of_length_eq_add_one hlen.symm
    simp only [length_cons, Nat.add_right_cancel_iff] at hlen hle
    have aligned (he : escaped isprint a = escaped isprint b) :
        spelled isprint (a :: s) = spelled isprint (b :: t) ↔
          a :: s = b :: t ∨ a = b ∧ collide isprint s t = true := by
      rw [cons.injEq, ← and_or_left, ← ih hlen (by omega)]
      refine ⟨spell_inj he, ?_⟩
      rintro ⟨rfl, h⟩
      rw [spelled_cons, spelled_cons, h]
    have hne (he : escaped isprint a ≠ escaped isprint b) : ¬a :: s = b :: t := by
      rintro ⟨⟩
      exact he rfl
    rw [collide]
    cases ha : escaped isprint a <;> cases hb : escaped isprint b
    · simpa using aligned (ha.trans hb.symm)
    · rw [or_iff_right (hne (by simp [ha, hb])), spelled_cons, spelled_cons]
      have hrest := @shifted_iff isprint (lo b) t s hlen.symm (by omega)
      rw [eq_comm] at hrest
      simp [spell, ha, hb, hrest]
    · rw [or_iff_right (hne (by simp [ha, hb])), spelled_cons, spelled_cons]
      have hrest := @shifted_iff isprint (lo a) s t hlen (by omega)
      simp [spell, ha, hb, hrest]
    · simpa using aligned (ha.trans hb.symm)

/-- The slash behind the directory tells whether its byte is escaped. -/
theorem spell_slash_inj (h : spell isprint a ++ 47 :: s = spell isprint b ++ 47 :: t) :
    a = b ∧ s = t := by
  have hne (b : UInt8) : lo b ≠ 47 := hexdig_ne_slash _ (Nat.mod_lt _ (by decide))
  have he : escaped isprint a = escaped isprint b := by
    unfold spell at h
    split_ifs at h with ha hb hb
    · rw [ha, hb]
    · simp [hne] at h
    · simp [(hne _).symm] at h
    · rw [Bool.eq_false_of_not_eq_true ha, Bool.eq_false_of_not_eq_true hb]
  simpa using spell_inj he h

/-- Where the path has room for a name of eight bytes and the suffix, two creators have one file
exactly if they are equal, or begin alike and collide behind their first byte. -/
theorem dtfile_same_iff (isprint : UInt8 → Bool) (dbpath ext : List UInt8) (x y : Vector UInt8 4)
    (hroom : dbpath.length + ext.length + 26 ≤ maxpathlen) :
    dtfile isprint (some dbpath) x ext = dtfile isprint (some dbpath) y ext ↔
      x = y ∨ x[0] = y[0] ∧ collide isprint x.toList.tail y.toList.tail = true := by
  have hfile (x : Vector UInt8 4) : dtfile isprint (some dbpath) x ext = some (dbpath ++
      appledesktop ++ (spell isprint x[0] ++ 47 :: spelled isprint x.toList) ++ ext) := by
    have hdir : appledesktop.length = 15 := rfl
    have hfirst := @length_spell_le isprint x[0]
    have hname := @length_spelled_le isprint x.toList
    rw [Vector.length_toList] at hname
    simp only [dtfile, strlcat, bind, Option.bind_some, append_assoc]
    rw [if_neg (by simp only [length_append]; omega), take_of_length_le]
    · rfl
    · simp only [length_append, length_cons]
      omega
  have hcons (x : Vector UInt8 4) : x.toList = x[0] :: x.toList.tail := by
    obtain ⟨⟨l⟩, hl⟩ := x
    obtain ⟨a, l, rfl⟩ := exists_cons_of_length_eq_add_one hl
    rfl
  rw [hfile, hfile, Option.some_inj, append_cancel_right_eq, append_cancel_left_eq,
    ← Vector.toList_inj, hcons x, hcons y, cons.injEq, ← and_or_left, tail_cons, tail_cons,
    ← spelled_eq_iff (by simp) (by simp)]
  refine ⟨fun h => ?_, ?_⟩
  · obtain ⟨hfirst, hname⟩ := spell_slash_inj h
    exact ⟨hfirst, (spell_inj (by rw [hfirst]) hname).2⟩
  · rintro ⟨hfirst, hrest⟩
    rw [hfirst, spelled_cons, spelled_cons, hrest]

/-- `isprint` of the C locale. -/
def asciiPrint (b : UInt8) : Bool := 32 ≤ b && b < 127

/-- The byte 01 before the digits `01` and the byte 02 behind them have different files. -/
theorem dtfile_same_digits : dtfile asciiPrint (some []) #v[97, 1, 48, 49] [46] ≠
    dtfile asciiPrint (some []) #v[97, 48, 49, 2] [46] := by
  rw [Ne, dtfile_same_iff asciiPrint [] [46] _ _ (by decide)]
  decide

/-- The bytes 01 and the digits `01` in both orders are both spelled `0101`. -/
theorem dtfile_shared : dtfile asciiPrint (some []) #v[97, 1, 48, 49] [46] =
    dtfile asciiPrint (some []) #v[97, 48, 49, 1] [46] := by
  decide

end Netatalk.Dtfile
