import Mathlib

/-! # UTF-8 and UTF-16

The model of `utf8_pull` and `utf8_push` (`libatalk/unicode/utf8.c`), which convert between UTF-8
and UTF-16.

* **Units.**  A `ucs2_t` is a natural number below `0x10000`.  The room of a call is counted in
  units for `utf8Pull` and in bytes for `utf8Push`.
* **Letters.**  A `Letter` is what the loops read or write in one round: a unit, or two units as one
  number, the first in the upper 16 bits.
* **Bit tests.**  A test of the leading bits of a byte is written as the range of bytes that pass.

`utf8_push` leaves out the characters U+202A to U+202E.  Apart from those, what it writes is read
back (`utf8Pull_encode`, `utf8Push_some`). -/

namespace Netatalk.Unicode

open List

/-- A high surrogate, the first unit of a pair. -/
def High (c : ℕ) : Prop := 0xD800 ≤ c ∧ c < 0xDC00

/-- A low surrogate, the second unit of a pair. -/
def Low (c : ℕ) : Prop := 0xDC00 ≤ c ∧ c < 0xE000

instance (c : ℕ) : Decidable (High c) := inferInstanceAs (Decidable (_ ∧ _))
instance (c : ℕ) : Decidable (Low c) := inferInstanceAs (Decidable (_ ∧ _))

inductive Letter where
  | unit (c : ℕ)
  | pair (sp : ℕ)
deriving DecidableEq, Repr

namespace Letter

def units : Letter → List ℕ
  | unit c => [c]
  | pair sp => [sp / 0x10000, sp % 0x10000]

/-- A character that a C string can hold. -/
def Valid : Letter → Prop
  | unit c => 0 < c ∧ c < 0xD800 ∨ 0xE000 ≤ c ∧ c < 0x10000
  | pair sp => High (sp / 0x10000) ∧ Low (sp % 0x10000)

/-- A character of Unicode, also NUL. -/
def Scalar : Letter → Prop
  | unit c => c < 0xD800 ∨ 0xE000 ≤ c ∧ c < 0x10000
  | pair sp => High (sp / 0x10000) ∧ Low (sp % 0x10000)

/-- What `utf8_pull` takes for a character.  A pair can lie above U+10FFFF, and its first unit is no
high surrogate then. -/
def Read : Letter → Prop
  | unit c => c < 0xD800 ∨ 0xE000 ≤ c ∧ c < 0x10000
  | pair sp => (0xD800 ≤ sp / 0x10000 ∧ sp / 0x10000 < 0xDCC0) ∧ Low (sp % 0x10000)

/-- The characters that `utf8_push` leaves out. -/
def Bidi : Letter → Prop
  | unit c => 0x202A ≤ c ∧ c ≤ 0x202E
  | pair _ => False

instance : DecidablePred Valid
  | unit _ => inferInstanceAs (Decidable (_ ∨ _))
  | pair _ => inferInstanceAs (Decidable (_ ∧ _))

instance : DecidablePred Scalar
  | unit _ => inferInstanceAs (Decidable (_ ∨ _))
  | pair _ => inferInstanceAs (Decidable (_ ∧ _))

instance : DecidablePred Bidi
  | unit _ => inferInstanceAs (Decidable (_ ∧ _))
  | pair _ => inferInstanceAs (Decidable False)

theorem Valid.scalar {l : Letter} (h : l.Valid) : l.Scalar := by
  cases l with
  | unit c =>
    rw [Valid] at h
    rw [Scalar]
    omega
  | pair => exact h

theorem Scalar.read {l : Letter} (h : l.Scalar) : l.Read := by
  cases l with
  | unit => exact h
  | pair => exact ⟨⟨h.1.1, h.1.2.trans (by decide)⟩, h.2⟩

theorem Valid.read {l : Letter} (h : l.Valid) : l.Read := h.scalar.read

end Letter

/-- The units of a word. -/
def units (ls : List Letter) : List ℕ := ls.flatMap Letter.units

/-! ### The bytes of a character -/

/-- `GETUTF8TRAILBYTE`. -/
def trailByte (c shift : ℕ) : UInt8 := UInt8.ofNat (0x80 + c / 2 ^ shift % 64)

def encodeUnit (uc : ℕ) : List UInt8 :=
  if uc < 0x80 then [UInt8.ofNat uc]
  else if uc < 0x800 then [UInt8.ofNat (0xC0 + uc / 2 ^ 6 % 32), trailByte uc 0]
  else [UInt8.ofNat (0xE0 + uc / 2 ^ 12 % 16), trailByte uc 6, trailByte uc 0]

def codepoint (hi low : ℕ) : ℕ := (hi - 0xD800) * 2 ^ 10 + (low - 0xDC00) + 0x10000

def encodePair (hi low : ℕ) : List UInt8 :=
  [UInt8.ofNat (0xF0 + codepoint hi low / 2 ^ 18 % 8), trailByte (codepoint hi low) 12,
    trailByte (codepoint hi low) 6, trailByte (codepoint hi low) 0]

def Letter.encode : Letter → List UInt8
  | unit c => encodeUnit c
  | pair sp => encodePair (sp / 0x10000) (sp % 0x10000)

/-- The UTF-8 bytes of a word. -/
def encode (ls : List Letter) : List UInt8 := ls.flatMap Letter.encode

/-- The bytes are the UTF-8 form of some characters. -/
def WellFormed (bs : List UInt8) : Prop := ∃ ls : List Letter, (∀ l ∈ ls, l.Valid) ∧ bs = encode ls

/-- The same for any string of characters. -/
def IsUtf8 (bs : List UInt8) : Prop := ∃ ls : List Letter, (∀ l ∈ ls, l.Scalar) ∧ bs = encode ls

/-! ### Reading -/

/-- The errors of `utf8_pull`: `EINVAL`, `EILSEQ` and `E2BIG`. -/
inductive PullError where
  | inval
  | ilseq
  | toobig
deriving DecidableEq, Repr

/-- The byte has the bits `10` in front. -/
def Trail (c : ℕ) : Prop := 0x80 ≤ c ∧ c < 0xC0

instance (c : ℕ) : Decidable (Trail c) := inferInstanceAs (Decidable (_ ∧ _))

/-- One round of `utf8_pull` on bytes that are left. -/
def utf8PullChar (room : ℕ) : List UInt8 → Except PullError (Letter × List UInt8)
  | [] => .error .inval
  | b₀ :: bs =>
    let c₀ := b₀.toNat
    if c₀ < 0x80 then .ok (.unit c₀, bs)
    else if 0xC0 ≤ c₀ ∧ c₀ < 0xE0 then
      match bs with
      | b₁ :: bs =>
        if 0xC2 ≤ c₀ ∧ Trail b₁.toNat then
          .ok (.unit (c₀ % 32 * 2 ^ 6 + b₁.toNat % 64), bs)
        else .error .ilseq
      | [] => .error .inval
    else if 0xE0 ≤ c₀ ∧ c₀ < 0xF0 then
      match bs with
      | b₁ :: b₂ :: bs =>
        if (c₀ = 0xE0 ∧ 0xA0 ≤ b₁.toNat ∧ b₁.toNat < 0xC0 ∨
            0xE1 ≤ c₀ ∧ c₀ ≤ 0xEC ∧ Trail b₁.toNat ∨
            c₀ = 0xED ∧ 0x80 ≤ b₁.toNat ∧ b₁.toNat < 0xA0 ∨
            0xEE ≤ c₀ ∧ Trail b₁.toNat) ∧ Trail b₂.toNat then
          .ok (.unit (c₀ % 16 * 2 ^ 12 + b₁.toNat % 64 * 2 ^ 6 + b₂.toNat % 64), bs)
        else .error .ilseq
      | _ => .error .inval
    else if 0xF0 ≤ c₀ ∧ c₀ < 0xF8 then
      match bs with
      | b₁ :: b₂ :: b₃ :: bs =>
        if room < 2 then .error .toobig
        -- the second byte after 0xF4 may be any trail byte
        else if (c₀ = 0xF0 ∧ 0x90 ≤ b₁.toNat ∧ b₁.toNat ≤ 0xBF ∨
            0xF1 ≤ c₀ ∧ c₀ ≤ 0xF3 ∧ Trail b₁.toNat ∨ c₀ = 0xF4 ∧ Trail b₁.toNat) ∧
            Trail b₂.toNat ∧ Trail b₃.toNat then
          let cp := c₀ % 8 * 2 ^ 18 + b₁.toNat % 64 * 2 ^ 12 + b₂.toNat % 64 * 2 ^ 6 +
            b₃.toNat % 64
          .ok (.pair (((cp - 0x10000) / 2 ^ 10 + 0xD800) * 0x10000 + (0xDC00 + cp % 2 ^ 10)),
            bs)
        else .error .ilseq
      | _ => .error .inval
    else .error .ilseq

/-- What a call of `utf8_pull` leaves: the units, the bytes not read and the error. -/
structure Pulled where
  units : List ℕ
  rest : List UInt8
  error : Option PullError
deriving DecidableEq, Repr

/-- The loop of `utf8_pull`.  A round reads a byte at least, so the first argument bounds the
rounds if it is the number of bytes. -/
def utf8PullLoop : ℕ → List UInt8 → ℕ → Pulled
  | _, [], _ => ⟨[], [], none⟩
  | 0, b :: bs, _ => ⟨[], b :: bs, some .toobig⟩
  | n + 1, b :: bs, room =>
    if room = 0 then ⟨[], b :: bs, some .toobig⟩
    else
      match utf8PullChar room (b :: bs) with
      | .error e => ⟨[], b :: bs, some e⟩
      | .ok (l, rest) =>
        let p := utf8PullLoop n rest (room - l.units.length)
        ⟨l.units ++ p.units, p.rest, p.error⟩

def utf8Pull (bs : List UInt8) (room : ℕ) : Pulled := utf8PullLoop bs.length bs room

/-! ### Writing -/

/-- `utf8_push`: the bytes, or none for an error, which is `EINVAL` or `E2BIG`. -/
def utf8Push : List ℕ → ℕ → Option (List UInt8)
  | [], _ => some []
  | uc :: us, room =>
    if room = 0 then none
    -- a bidi hint takes no room
    else if 0x202A ≤ uc ∧ uc ≤ 0x202E then utf8Push us room
    else if 0xD800 ≤ uc ∧ uc ≤ 0xDFFF then
      if room < 4 then none
      else
        match us with
        | [] => none
        | low :: us =>
          if High uc ∧ Low low then (utf8Push us (room - 4)).map (encodePair uc low ++ ·)
          else none
    else if room < (encodeUnit uc).length then none
    else (utf8Push us (room - (encodeUnit uc).length)).map (encodeUnit uc ++ ·)

/-! ### Words and their bytes -/

@[simp]
theorem units_cons (l : Letter) (ls : List Letter) : units (l :: ls) = l.units ++ units ls := rfl

@[simp]
theorem encode_nil : encode [] = [] := rfl

@[simp]
theorem encode_cons (l : Letter) (ls : List Letter) :
    encode (l :: ls) = l.encode ++ encode ls := rfl

theorem length_encodeUnit (c : ℕ) :
    (encodeUnit c).length = if c < 0x80 then 1 else if c < 0x800 then 2 else 3 := by
  rw [encodeUnit]
  split_ifs <;> rfl

theorem Letter.length_units_le (l : Letter) : l.units.length ≤ l.encode.length := by
  cases l with
  | unit c =>
    have := length_encodeUnit c
    rw [units, encode, length_singleton]
    split_ifs at this <;> omega
  | pair => exact (by decide : 2 ≤ 4)

theorem Letter.length_units_pos (l : Letter) : 0 < l.units.length := by
  cases l <;> simp [units]

theorem length_units_le (ls : List Letter) : (units ls).length ≤ (encode ls).length := by
  induction ls with
  | nil => exact le_rfl
  | cons l ls ih =>
    have := l.length_units_le
    rw [units_cons, encode_cons, length_append, length_append]
    omega

theorem pair_parts {hi low : ℕ} (h : low < 0x10000) :
    (hi * 0x10000 + low) / 0x10000 = hi ∧ (hi * 0x10000 + low) % 0x10000 = low := by
  omega

theorem toNat_trailByte (c shift : ℕ) : (trailByte c shift).toNat = 0x80 + c / 2 ^ shift % 64 := by
  rw [trailByte, UInt8.toNat_ofNat_of_lt']
  simp only [UInt8.size]
  omega

theorem trail_trailByte (c shift : ℕ) : Trail (trailByte c shift).toNat := by
  rw [toNat_trailByte, Trail]
  omega

variable {bs : List UInt8} {c n room sp : ℕ} {l : Letter} {ls ls' : List Letter} {us : List ℕ}

theorem toNat_ofNat_of_lt (h : n < 256) : (UInt8.ofNat n).toNat = n :=
  UInt8.toNat_ofNat_of_lt' h

/-! ### A character is read back -/

theorem utf8PullChar_unit (h : (Letter.unit c).Read) (room : ℕ) (rest : List UInt8) :
    utf8PullChar room (encodeUnit c ++ rest) = .ok (.unit c, rest) := by
  rw [Letter.Read] at h
  rw [encodeUnit]
  split_ifs with h₁ h₂
  · have hc : (UInt8.ofNat c).toNat = c := toNat_ofNat_of_lt (by omega)
    simp only [cons_append, nil_append, utf8PullChar, hc, if_pos h₁]
  · have hc : (UInt8.ofNat (0xC0 + c / 2 ^ 6 % 32)).toNat = 0xC0 + c / 2 ^ 6 :=
      (toNat_ofNat_of_lt (by omega)).trans (by omega)
    have ht := trail_trailByte c 0
    simp only [cons_append, nil_append, utf8PullChar, hc]
    rw [if_neg (by omega), if_pos (by omega), if_pos ⟨by omega, ht⟩, toNat_trailByte]
    have : (0xC0 + c / 2 ^ 6) % 32 * 2 ^ 6 + (0x80 + c / 2 ^ 0 % 64) % 64 = c := by omega
    rw [this]
  · have hc : (UInt8.ofNat (0xE0 + c / 2 ^ 12 % 16)).toNat = 0xE0 + c / 2 ^ 12 :=
      (toNat_ofNat_of_lt (by omega)).trans (by omega)
    have hb : (trailByte c 6).toNat = 0x80 + c / 2 ^ 6 % 64 := toNat_trailByte c 6
    have ht₂ := trail_trailByte c 0
    simp only [cons_append, nil_append, utf8PullChar, hc]
    rw [if_neg (by omega), if_neg (by omega), if_pos (by omega), if_pos]
    · rw [hb, toNat_trailByte]
      have : (0xE0 + c / 2 ^ 12) % 16 * 2 ^ 12 + (0x80 + c / 2 ^ 6 % 64) % 64 * 2 ^ 6 +
          (0x80 + c / 2 ^ 0 % 64) % 64 = c := by omega
      rw [this]
    · refine ⟨?_, ht₂⟩
      rw [Trail]
      omega

theorem toNat_leadByte (h : (Letter.pair sp).Read) :
    (UInt8.ofNat (0xF0 + codepoint (sp / 0x10000) (sp % 0x10000) / 2 ^ 18 % 8)).toNat =
      0xF0 + codepoint (sp / 0x10000) (sp % 0x10000) / 2 ^ 18 ∧
    codepoint (sp / 0x10000) (sp % 0x10000) < 0x140000 := by
  obtain ⟨⟨hhi, hhi'⟩, hlo, hlo'⟩ := h
  rw [codepoint]
  exact ⟨(toNat_ofNat_of_lt (by omega)).trans (by omega), by omega⟩

theorem utf8PullChar_pair (h : (Letter.pair sp).Read) (hroom : 2 ≤ room) (rest : List UInt8) :
    utf8PullChar room (encodePair (sp / 0x10000) (sp % 0x10000) ++ rest) =
      .ok (.pair sp, rest) := by
  obtain ⟨hc, -⟩ := toNat_leadByte h
  obtain ⟨⟨hhi, hhi'⟩, hlo, hlo'⟩ := h
  generalize hcp : codepoint (sp / 0x10000) (sp % 0x10000) = cp at hc
  have hval : cp = (sp / 0x10000 - 0xD800) * 2 ^ 10 + (sp % 0x10000 - 0xDC00) + 0x10000 := hcp.symm
  have hb : (trailByte cp 12).toNat = 0x80 + cp / 2 ^ 12 % 64 := toNat_trailByte cp 12
  have ht₂ := trail_trailByte cp 6
  have ht₃ := trail_trailByte cp 0
  simp only [encodePair, hcp, cons_append, nil_append, utf8PullChar, hc]
  rw [if_neg (by omega), if_neg (by omega), if_neg (by omega), if_pos (by omega),
    if_neg (by omega), if_pos]
  · rw [hb, toNat_trailByte, toNat_trailByte]
    have hread : (0xF0 + cp / 2 ^ 18) % 8 * 2 ^ 18 + (0x80 + cp / 2 ^ 12 % 64) % 64 * 2 ^ 12 +
        (0x80 + cp / 2 ^ 6 % 64) % 64 * 2 ^ 6 + (0x80 + cp / 2 ^ 0 % 64) % 64 = cp := by omega
    rw [hread]
    have hunits : ((cp - 0x10000) / 2 ^ 10 + 0xD800) * 0x10000 + (0xDC00 + cp % 2 ^ 10) = sp := by
      omega
    rw [hunits]
  · refine ⟨?_, ht₂, ht₃⟩
    rw [Trail]
    omega

theorem Letter.Read.utf8PullChar_encode (h : l.Read) (hroom : l.units.length ≤ room)
    (rest : List UInt8) : utf8PullChar room (l.encode ++ rest) = .ok (l, rest) := by
  cases l with
  | unit => exact utf8PullChar_unit h room rest
  | pair => exact utf8PullChar_pair h hroom rest

/-! ### A word is read back -/

theorem utf8PullLoop_of_ok {rest : List UInt8} (h : utf8PullChar room bs = .ok (l, rest))
    (hroom : room ≠ 0) : utf8PullLoop (n + 1) bs room =
      ⟨l.units ++ (utf8PullLoop n rest (room - l.units.length)).units,
        (utf8PullLoop n rest (room - l.units.length)).rest,
        (utf8PullLoop n rest (room - l.units.length)).error⟩ := by
  cases bs with
  | nil => cases h
  | cons => rw [utf8PullLoop, if_neg hroom, h]

theorem utf8PullLoop_of_error {b : UInt8} {e : PullError}
    (h : utf8PullChar room (b :: bs) = .error e) (hroom : room ≠ 0) :
    utf8PullLoop (n + 1) (b :: bs) room = ⟨[], b :: bs, some e⟩ := by
  rw [utf8PullLoop, if_neg hroom, h]

theorem Letter.length_encode_pos (l : Letter) : 0 < l.encode.length :=
  l.length_units_pos.trans_le l.length_units_le

theorem utf8PullLoop_encode (hls : ∀ l ∈ ls, l.Read)
    (hn : (encode ls).length ≤ n) (hroom : (units ls).length ≤ room) :
    utf8PullLoop n (encode ls) room = ⟨units ls, [], none⟩ := by
  induction ls generalizing n room with
  | nil => cases n <;> rfl
  | cons l ls ih =>
    obtain ⟨hl, hls⟩ := forall_mem_cons.mp hls
    rw [encode_cons, length_append] at hn
    rw [units_cons, length_append] at hroom
    have hpos := l.length_encode_pos
    have hpos' := l.length_units_pos
    obtain ⟨n, rfl⟩ := Nat.exists_eq_add_one_of_ne_zero (by omega : n ≠ 0)
    rw [encode_cons, utf8PullLoop_of_ok (hl.utf8PullChar_encode (by omega) _) (by omega),
      ih hls (by omega) (by omega), units_cons]

/-- Four bytes do not go into the last unit. -/
theorem utf8PullChar_toobig (h : (Letter.pair sp).Read) (rest : List UInt8) :
    utf8PullChar 1 (encodePair (sp / 0x10000) (sp % 0x10000) ++ rest) = .error .toobig := by
  obtain ⟨hc, hlt⟩ := toNat_leadByte h
  simp only [encodePair, cons_append, utf8PullChar, hc]
  rw [if_neg (by omega), if_neg (by omega), if_neg (by omega), if_pos (by omega),
    if_pos (by omega)]

theorem error_utf8PullLoop_encode (hls : ∀ l ∈ ls, l.Read)
    (hn : (encode ls).length ≤ n) (hroom : room < (units ls).length) :
    (utf8PullLoop n (encode ls) room).error = some .toobig := by
  induction ls generalizing n room with
  | nil => exact absurd hroom (Nat.not_lt_zero _)
  | cons l ls ih =>
    obtain ⟨hl, hls⟩ := forall_mem_cons.mp hls
    rw [encode_cons, length_append] at hn
    rw [units_cons, length_append] at hroom
    have hpos := l.length_encode_pos
    obtain ⟨n, rfl⟩ := Nat.exists_eq_add_one_of_ne_zero (by omega : n ≠ 0)
    obtain ⟨b, bs, hb⟩ := exists_cons_of_length_pos hpos
    rw [encode_cons]
    by_cases hzero : room = 0
    · rw [hb, cons_append, utf8PullLoop, if_pos hzero]
    by_cases hfits : l.units.length ≤ room
    · rw [utf8PullLoop_of_ok (hl.utf8PullChar_encode hfits _) hzero]
      exact ih hls (by omega) (by omega)
    · -- a pair, and room for one unit
      cases l with
      | unit => exact absurd (Nat.pos_of_ne_zero hzero) hfits
      | pair sp =>
        obtain rfl : room = 1 := by
          have : ¬ 2 ≤ room := hfits
          omega
        have hbig := utf8PullChar_toobig hl (encode ls)
        have hcons : (Letter.pair sp).encode ++ encode ls = b :: (bs ++ encode ls) := by
          rw [hb, cons_append]
        rw [hcons]
        rw [← Letter.encode, hcons] at hbig
        rw [utf8PullLoop_of_error hbig hzero]

/-- The UTF-8 form of a word is read as its units, if there is room for them. -/
theorem utf8Pull_encode (hls : ∀ l ∈ ls, l.Read)
    (hroom : (units ls).length ≤ room) : utf8Pull (encode ls) room = ⟨units ls, [], none⟩ :=
  utf8PullLoop_encode hls le_rfl hroom

theorem error_utf8Pull_encode (hls : ∀ l ∈ ls, l.Read)
    (hroom : room < (units ls).length) : (utf8Pull (encode ls) room).error = some .toobig :=
  error_utf8PullLoop_encode hls le_rfl hroom

/-! ### Words with the same units or bytes -/

theorem Letter.Read.units_append_inj {l' : Letter} (h : l.Read) (h' : l'.Read)
    {us' : List ℕ} (heq : l.units ++ us = l'.units ++ us') : l = l' ∧ us = us' := by
  cases l with
  | unit c =>
    cases l' with
    | unit =>
      obtain ⟨rfl, rfl⟩ := cons.inj heq
      exact ⟨rfl, rfl⟩
    | pair sp' =>
      have hc : c = sp' / 0x10000 := (cons.inj heq).1
      obtain ⟨⟨h₁, h₂⟩, -⟩ := h'
      rw [Read] at h
      omega
  | pair sp =>
    cases l' with
    | unit c' =>
      have hc : sp / 0x10000 = c' := (cons.inj heq).1
      obtain ⟨⟨h₁, h₂⟩, -⟩ := h
      rw [Read] at h'
      omega
    | pair sp' =>
      obtain ⟨hhi, htail⟩ := cons.inj heq
      obtain ⟨hlo, rfl⟩ := cons.inj htail
      exact ⟨congrArg pair (by omega), rfl⟩

theorem units_inj (hls : ∀ l ∈ ls, l.Read) (hls' : ∀ l ∈ ls', l.Read)
    (heq : units ls = units ls') : ls = ls' := by
  induction ls generalizing ls' with
  | nil =>
    cases ls' with
    | nil => rfl
    | cons l' => cases l' <;> cases heq
  | cons l ls ih =>
    cases ls' with
    | nil => cases l <;> cases heq
    | cons =>
      obtain ⟨hl, hrest⟩ := forall_mem_cons.mp hls
      obtain ⟨hl', hrest'⟩ := forall_mem_cons.mp hls'
      obtain ⟨rfl, htail⟩ := hl.units_append_inj hl' heq
      exact congrArg (l :: ·) (ih hrest hrest' htail)

theorem encode_inj (hls : ∀ l ∈ ls, l.Read) (hls' : ∀ l ∈ ls', l.Read)
    (heq : encode ls = encode ls') : ls = ls' := by
  have h := utf8Pull_encode hls (le_max_left (units ls).length (units ls').length)
  have h' := utf8Pull_encode hls' (le_max_right (units ls).length (units ls').length)
  rw [heq, h'] at h
  exact units_inj hls hls' (Pulled.mk.inj h).1.symm

/-! ### What is accepted -/

theorem ofNat_eq_of_toNat (b : UInt8) (h : b.toNat = n) : UInt8.ofNat n = b := by
  rw [← h, UInt8.ofNat_toNat]

/-- A trail byte is made of its lower six bits. -/
theorem trailByte_eq {b : UInt8} {shift : ℕ} (hb : Trail b.toNat)
    (h : c / 2 ^ shift % 64 = b.toNat % 64) : trailByte c shift = b := by
  obtain ⟨h₁, h₂⟩ := hb
  exact ofNat_eq_of_toNat b (by omega)

theorem codepoint_parts (h : 0x10000 ≤ n) :
    codepoint ((n - 0x10000) / 2 ^ 10 + 0xD800) (0xDC00 + n % 2 ^ 10) = n := by
  rw [codepoint, Nat.add_sub_cancel]
  omega

theorem utf8PullChar_ok {rest : List UInt8} (h : utf8PullChar room bs = .ok (l, rest)) :
    l.Read ∧ bs = l.encode ++ rest := by
  revert h
  fun_cases utf8PullChar room bs with
  | case2 b₀ bs c₀ h₁ =>
    rintro ⟨⟩
    refine ⟨.inl (h₁.trans (by decide)), ?_⟩
    rw [Letter.encode, encodeUnit, if_pos h₁, UInt8.ofNat_toNat]
    rfl
  | case3 b₀ c₀ _ _ b₁ bs hc =>
    rintro ⟨⟩
    obtain ⟨hc, ht⟩ := hc
    refine ⟨.inl (by omega), ?_⟩
    rw [Letter.encode, encodeUnit, if_neg (by omega), if_pos (by omega),
      ofNat_eq_of_toNat b₀ (by omega), trailByte_eq ht (by omega)]
    rfl
  | case6 b₀ c₀ _ _ _ b₁ b₂ bs hc =>
    rintro ⟨⟩
    obtain ⟨hc, ht⟩ := hc
    have ht₁ : Trail b₁.toNat := by
      rw [Trail] at hc ⊢
      omega
    have hv : (Letter.unit (b₀.toNat % 16 * 2 ^ 12 + b₁.toNat % 64 * 2 ^ 6 +
        b₂.toNat % 64)).Read := by
      rw [Letter.Read]
      omega
    refine ⟨hv, ?_⟩
    rw [Letter.encode, encodeUnit, if_neg (by omega), if_neg (by omega),
      ofNat_eq_of_toNat b₀ (by omega), trailByte_eq ht₁ (by omega), trailByte_eq ht (by omega)]
    rfl
  | case10 b₀ c₀ _ _ _ _ b₁ b₂ b₃ bs _ hc cp =>
    rintro ⟨⟩
    obtain ⟨hc, ht₂, ht₃⟩ := hc
    have ht₁ : Trail b₁.toNat := by
      rw [Trail] at hc ⊢
      omega
    have hrange : 0x10000 ≤ cp ∧ cp < 0x140000 := by
      omega
    rw [Letter.encode, encodePair]
    obtain ⟨hhi, hlo⟩ := @pair_parts ((cp - 0x10000) / 2 ^ 10 + 0xD800) (0xDC00 + cp % 2 ^ 10)
      (by omega)
    rw [hhi, hlo]
    refine ⟨⟨by omega, by omega, by omega⟩, ?_⟩
    rw [codepoint_parts hrange.1, ofNat_eq_of_toNat b₀ (by omega), trailByte_eq ht₁ (by omega),
      trailByte_eq ht₂ (by omega), trailByte_eq ht₃ (by omega)]
    rfl
  | _ => simp

theorem exists_of_utf8PullLoop (h : (utf8PullLoop n bs room).error = none) :
    ∃ ls : List Letter, (∀ l ∈ ls, l.Read) ∧ bs = encode ls := by
  induction n generalizing bs room with
  | zero =>
    cases bs with
    | nil => exact ⟨[], by simp, rfl⟩
    | cons => cases h
  | succ n ih =>
    rcases bs with _ | ⟨b, bs⟩
    · exact ⟨[], by simp, rfl⟩
    by_cases hroom : room = 0
    · rw [utf8PullLoop, if_pos hroom] at h
      cases h
    cases hc : utf8PullChar room (b :: bs) with
    | error =>
      rw [utf8PullLoop_of_error hc hroom] at h
      cases h
    | ok p =>
      rw [utf8PullLoop_of_ok hc hroom] at h
      obtain ⟨hl, heq⟩ := utf8PullChar_ok hc
      obtain ⟨ls, hls, hrest⟩ := ih h
      exact ⟨p.1 :: ls, forall_mem_cons.mpr ⟨hl, hls⟩, by rw [heq, hrest, encode_cons]⟩

/-- A string is read as its characters, unless a character of it is above U+10FFFF. -/
theorem utf8Pull_exact_iff (bs : List UInt8) (spare : ℕ) :
    (((utf8Pull bs (bs.length + spare)).error = none ↔ IsUtf8 bs) ∧
      ∀ ls : List Letter, (∀ l ∈ ls, l.Scalar) → bs = encode ls →
        (utf8Pull bs (bs.length + spare)).units = units ls) ↔
    ¬ ∃ ls : List Letter, (∀ l ∈ ls, l.Read) ∧ bs = encode ls ∧ ∃ l ∈ ls, ¬ l.Scalar := by
  have hread : ∀ ls : List Letter, (∀ l ∈ ls, l.Read) → bs = encode ls →
      utf8Pull bs (bs.length + spare) = ⟨units ls, [], none⟩ := by
    rintro ls hls rfl
    exact utf8Pull_encode hls ((length_units_le ls).trans (Nat.le_add_right _ _))
  constructor
  · rintro ⟨⟨h, -⟩, -⟩ ⟨ls, hls, heq, l, hl, hn⟩
    obtain ⟨ls', hls', heq'⟩ := h (by rw [hread ls hls heq])
    have hsame := encode_inj hls (fun l hl => (hls' l hl).read) (heq.symm.trans heq')
    exact hn (hls' l (hsame ▸ hl))
  · intro h
    refine ⟨⟨?_, ?_⟩, ?_⟩
    · intro hnone
      obtain ⟨ls, hls, heq⟩ := exists_of_utf8PullLoop hnone
      refine ⟨ls, ?_, heq⟩
      intro l hl
      by_contra hn
      exact h ⟨ls, hls, heq, l, hl, hn⟩
    · rintro ⟨ls, hls, heq⟩
      rw [hread ls (fun l hl => (hls l hl).read) heq]
    · intro ls hls heq
      rw [hread ls (fun l hl => (hls l hl).read) heq]

/-- The four bytes of 0x110000, which no character has. -/
theorem utf8Pull_beyond : utf8Pull [0xF4, 0x90, 0x80, 0x80] 4 = ⟨[0xDC00, 0xDC00], [], none⟩ ∧
    ¬ IsUtf8 [0xF4, 0x90, 0x80, 0x80] := by
  refine ⟨by decide, ?_⟩
  rintro ⟨ls, hls, heq⟩
  have hread : ∀ l ∈ [Letter.pair 0xDC00DC00], l.Read := by
    intro l hl
    rw [mem_singleton.mp hl]
    exact ⟨⟨by decide, by decide⟩, by decide⟩
  obtain rfl := encode_inj hread (fun l hl => (hls l hl).read) heq
  exact absurd (hls _ mem_cons_self) (by decide)

/-! ### What is written -/

/-- The word as `utf8_push` writes it. -/
def plain (ls : List Letter) : List Letter := ls.filter fun l => ¬ l.Bidi

theorem plain_cons_of_bidi (h : l.Bidi) (ls : List Letter) : plain (l :: ls) = plain ls :=
  filter_cons_of_neg (by simpa using h)

theorem plain_cons_of_not_bidi (h : ¬ l.Bidi) (ls : List Letter) :
    plain (l :: ls) = l :: plain ls :=
  filter_cons_of_pos (by simpa using h)

theorem mem_plain : l ∈ plain ls ↔ l ∈ ls ∧ ¬ l.Bidi := by
  rw [plain, mem_filter, decide_eq_true_eq]

theorem plain_eq_self (h : ∀ l ∈ ls, ¬ l.Bidi) : plain ls = ls :=
  filter_eq_self.mpr fun l hl => decide_eq_true (h l hl)

/-- A letter that a string to be written can have: the second unit of a pair is a low surrogate,
the first one may be anything. -/
def Letter.Loose : Letter → Prop
  | unit c => (unit c).Valid
  | pair sp => Low (sp % 0x10000)

theorem Letter.Valid.loose (h : l.Valid) : l.Loose := by
  cases l with
  | unit => exact h
  | pair => exact h.2

theorem utf8Push_unit (h : (Letter.unit c).Scalar) (hb : ¬ (Letter.unit c).Bidi) (us : List ℕ) :
    utf8Push (c :: us) room =
      if room < (encodeUnit c).length then none
      else (utf8Push us (room - (encodeUnit c).length)).map (encodeUnit c ++ ·) := by
  have hpos : 0 < (encodeUnit c).length := (Letter.unit c).length_encode_pos
  have hs : ¬ (0xD800 ≤ c ∧ c ≤ 0xDFFF) := by
    rw [Letter.Scalar] at h
    omega
  have hb : ¬ (0x202A ≤ c ∧ c ≤ 0x202E) := hb
  rw [utf8Push.eq_def]
  dsimp only
  by_cases hzero : room = 0
  · rw [if_pos hzero, if_pos (by omega)]
  · rw [if_neg hzero, if_neg hb, if_neg hs]

theorem utf8Push_bidi (hb : (Letter.unit c).Bidi)
    (h : utf8Push (c :: us) room = some bs) : utf8Push us room = some bs := by
  rw [utf8Push.eq_def] at h
  dsimp only at h
  split_ifs at h with hzero hb'
  · exact h
  · exact absurd hb hb'
  · exact absurd hb hb'

/-- A pair is written in four bytes, and it is one. -/
theorem utf8Push_pair (h : (Letter.pair sp).Valid) (us : List ℕ) :
    utf8Push (sp / 0x10000 :: sp % 0x10000 :: us) room =
      if room < 4 then none
      else (utf8Push us (room - 4)).map (encodePair (sp / 0x10000) (sp % 0x10000) ++ ·) := by
  obtain ⟨hhi, hhi'⟩ := h.1
  rw [utf8Push.eq_def]
  dsimp only
  by_cases hzero : room = 0
  · rw [if_pos hzero, if_pos (by omega)]
  · rw [if_neg hzero, if_neg (by omega), if_pos (by omega)]
    by_cases hroom : room < 4
    · rw [if_pos hroom, if_pos hroom]
    · rw [if_neg hroom, if_neg hroom]
      exact if_pos h

theorem utf8Push_low (h : Low c) (us : List ℕ) : utf8Push (c :: us) room = none := by
  obtain ⟨h₁, h₂⟩ := h
  have hhigh : ¬ High c := fun hc => by
    obtain ⟨-, hc⟩ := hc
    omega
  rw [utf8Push.eq_def]
  dsimp only
  by_cases hzero : room = 0
  · rw [if_pos hzero]
  rw [if_neg hzero, if_neg (by omega), if_pos (by omega)]
  by_cases hroom : room < 4
  · rw [if_pos hroom]
  rw [if_neg hroom]
  cases us with
  | nil => rfl
  | cons => exact if_neg fun hp => hhigh hp.1

theorem valid_of_utf8Push (hlow : Low (sp % 0x10000))
    (h : utf8Push (sp / 0x10000 :: sp % 0x10000 :: us) room = some bs) :
    (Letter.pair sp).Valid := by
  refine ⟨?_, hlow⟩
  by_contra hhigh
  rw [utf8Push.eq_def] at h
  dsimp only at h
  split_ifs at h with hzero hb hs hroom hpair
  · rw [utf8Push_low hlow] at h
    cases h
  · exact hhigh hpair.1
  · rw [utf8Push_low hlow] at h
    cases h

/-- What `utf8_push` accepts is a word, which it writes without the bidi hints. -/
theorem utf8Push_some (hls : ∀ l ∈ ls, l.Loose) (h : utf8Push (units ls) room = some bs) :
    (∀ l ∈ ls, l.Valid) ∧ bs = encode (plain ls) ∧ bs.length ≤ room := by
  induction ls generalizing room bs with
  | nil =>
    cases h
    exact ⟨by simp, rfl, zero_le⟩
  | cons l ls ih =>
    obtain ⟨hl, hrest⟩ := forall_mem_cons.mp hls
    -- the letter is written in front of what the rest gives
    have hput : ∀ {size : ℕ}, l.Valid → ¬ l.Bidi → l.encode.length = size →
        (if room < size then none else (utf8Push (units ls) (room - size)).map (l.encode ++ ·)) =
          some bs →
        (∀ w ∈ l :: ls, w.Valid) ∧ bs = encode (plain (l :: ls)) ∧ bs.length ≤ room := by
      intro size hv hb hsize heq
      split_ifs at heq with hroom
      obtain ⟨bs', hbs', rfl⟩ := Option.map_eq_some_iff.mp heq
      obtain ⟨hvs, henc, hlen⟩ := ih hrest hbs'
      refine ⟨forall_mem_cons.mpr ⟨hv, hvs⟩, ?_, ?_⟩
      · rw [plain_cons_of_not_bidi hb, encode_cons, henc]
      · rw [length_append]
        omega
    cases l with
    | unit c =>
      rw [units_cons, Letter.units, singleton_append] at h
      by_cases hb : (Letter.unit c).Bidi
      · obtain ⟨hvs, henc, hlen⟩ := ih hrest (utf8Push_bidi hb h)
        exact ⟨forall_mem_cons.mpr ⟨hl, hvs⟩, by rw [plain_cons_of_bidi hb, henc], hlen⟩
      · rw [utf8Push_unit (@Letter.Valid.scalar (.unit c) hl) hb] at h
        exact hput hl hb rfl h
    | pair =>
      rw [units_cons, Letter.units, cons_append, singleton_append] at h
      have hv := valid_of_utf8Push hl h
      rw [utf8Push_pair hv] at h
      exact hput hv id rfl h

theorem utf8Push_units {ls : List Letter} (hls : ∀ l ∈ ls, l.Scalar) (hb : ∀ l ∈ ls, ¬ l.Bidi)
    {room : ℕ} (hroom : (encode ls).length ≤ room) :
    utf8Push (units ls) room = some (encode ls) := by
  induction ls generalizing room with
  | nil => rfl
  | cons l ls ih =>
    obtain ⟨hl, hls⟩ := forall_mem_cons.mp hls
    obtain ⟨hlb, hb⟩ := forall_mem_cons.mp hb
    rw [encode_cons, length_append] at hroom
    have hrest := @ih hls hb (room - l.encode.length) (by omega)
    cases l with
    | unit c =>
      rw [Letter.encode] at hroom hrest
      rw [units_cons, Letter.units, singleton_append, utf8Push_unit hl hlb,
        if_neg (by omega), hrest]
      rfl
    | pair sp =>
      have hsize : (Letter.pair sp).encode.length = 4 := rfl
      rw [hsize] at hroom hrest
      rw [units_cons, Letter.units, cons_append, singleton_append, utf8Push_pair hl,
        if_neg (by omega), hrest]
      rfl

/-- Without the bidi hints reading and writing are inverse to each other. -/
theorem utf8_roundTrip (hls : ∀ l ∈ ls, l.Scalar ∧ ¬ l.Bidi) (spare spare' : ℕ) :
    utf8Push (utf8Pull (encode ls) ((units ls).length + spare)).units
        ((encode ls).length + spare') = some (encode ls) ∧
      (utf8Push (units ls) ((encode ls).length + spare')).map
        (utf8Pull · ((units ls).length + spare)) = some ⟨units ls, [], none⟩ := by
  have hpull := utf8Pull_encode (fun l hl => (hls l hl).1.read)
    (Nat.le_add_right (units ls).length spare)
  have hpush := utf8Push_units (fun l hl => (hls l hl).1) (fun l hl => (hls l hl).2)
    (Nat.le_add_right (encode ls).length spare')
  rw [hpull, hpush, Option.map_some, hpull]
  exact ⟨rfl, rfl⟩

theorem utf8_roundTrip_clef : utf8Push
    (utf8Pull [0x41, 0xF0, 0x9D, 0x84, 0x9E] 3).units 5 = some [0x41, 0xF0, 0x9D, 0x84, 0x9E] :=
  (@utf8_roundTrip [.unit 0x41, .pair 0xD834DD1E] (by decide) 0 0).1

end Netatalk.Unicode
