import Netatalk.SpotlightPack

/-! # Unpacking Spotlight requests

The model of the unmarshalling half of `etc/afpd/spotlight_marshalling.c`: a packed document
becomes a tree of values again, whatever its bytes are.

A buffer is the list of the bytes the callee was handed, so a nested document is a buffer of its
own.  A read outside it is a fault apart from the `-1` of a malformed document.  A loop is cut
off after as many rounds as the buffer has bytes and one more, and the calls after a fixed number
of frames; both are errors of their own.  No document meets any of these three
(`slUnpackLen_safe`). -/

namespace Netatalk.Spotlight

open Netatalk.Bytes Netatalk.Fallible

/-! ### Reads -/

/-- Why a call yields no tree: it returns `-1`, reads outside its buffer, or is cut off. -/
inductive UnpackErr where
  | fail
  | wild
  | loops
  | tooDeep
deriving DecidableEq, Repr

/-- The byte order of a document. -/
inductive Encoding where
  | littleEndian
  | bigEndian
deriving DecidableEq, Repr

def subqSafetyLim : ℕ := 20
def tocOffsetMax : ℕ := 65000
def uintMax : ℕ := 4294967295
def sizeMax : ℕ := 18446744073709551615

/-- The magic of a big-endian document, `md031234`. -/
def magicBigEndian : List UInt8 := [0x6d, 0x64, 0x30, 0x33, 0x31, 0x32, 0x33, 0x34]

def slUnpackRangeValid (bufLen offset length : ℕ) : Bool :=
  decide (offset ≤ bufLen) && decide (length ≤ bufLen - offset)

/-- Bytes of the buffer. -/
def get (buf : List UInt8) (offset n : ℕ) : Except UnpackErr (List UInt8) :=
  match read buf offset n with
  | some bs => .ok bs
  | none => .error .wild

def slUnpackUint64 (buf : List UInt8) (offset : ℕ) (enc : Encoding) : Except UnpackErr ℕ := do
  let bs ← get buf offset 8
  match enc with
  | .littleEndian => return leNat bs
  | .bigEndian => return beNat bs

def slUnpackUint64Checked (buf : List UInt8) (offset : ℕ) (enc : Encoding) :
    Except UnpackErr ℕ :=
  if slUnpackRangeValid buf.length offset 8 then slUnpackUint64 buf offset enc
  else .error .fail

/-- The fields of a tag: its size or count, its type and its value. -/
def tagSize (q : ℕ) : ℕ := q % 2 ^ 16
def tagType (q : ℕ) : ℕ := q / 2 ^ 16 % 2 ^ 16
def tagVal (q : ℕ) : ℕ := q / 2 ^ 32

def slUnpackCount (q queryLength elementSize : ℕ) : Except UnpackErr ℕ :=
  if queryLength < 8 then .error .fail
  else if intMax < tagVal q ∨ (queryLength - 8) / elementSize < tagVal q then .error .fail
  else .ok (tagVal q)

/-! ### Elements that hold values -/

/-- Words in a row. -/
def slUnpackWords (buf : List UInt8) (enc : Encoding) : ℕ → ℕ → Except UnpackErr (List ℕ)
  | 0, _ => .ok []
  | count + 1, offset => do
      let w ← slUnpackUint64Checked buf offset enc
      let ws ← slUnpackWords buf enc count (offset + 8)
      return w :: ws

/-- An element of words, each of which becomes a value. -/
def slUnpackValues (value : UInt64 → Node) (buf : List UInt8) (offset queryLength : ℕ)
    (enc : Encoding) : Except UnpackErr (List Node) := do
  let q ← slUnpackUint64Checked buf offset enc
  let count ← slUnpackCount q queryLength 8
  let ws ← slUnpackWords buf enc count (offset + 8)
  return ws.map fun w => value (UInt64.ofNat w)

def slUnpackInts : List UInt8 → ℕ → ℕ → Encoding → Except UnpackErr (List Node) :=
  slUnpackValues .uint64

def slUnpackFloats : List UInt8 → ℕ → ℕ → Encoding → Except UnpackErr (List Node) :=
  slUnpackValues .double

def slUnpackDate (h : Host) : List UInt8 → ℕ → ℕ → Encoding → Except UnpackErr (List Node) :=
  slUnpackValues fun w => .date (h.bitsDate w)

/-- UUIDs in a row. -/
def slUnpackUuids (buf : List UInt8) : ℕ → ℕ → Except UnpackErr (List Node)
  | 0, _ => .ok []
  | count + 1, offset =>
    if slUnpackRangeValid buf.length offset 16 then do
      let bs ← get buf offset 16
      let us ← slUnpackUuids buf count (offset + 16)
      return .uuid (Vector.ofFn fun i => bs.getD i 0) :: us
    else .error .fail

def slUnpackUuid (buf : List UInt8) (offset queryLength : ℕ) (enc : Encoding) :
    Except UnpackErr (List Node) := do
  let q ← slUnpackUint64Checked buf offset enc
  let count ← slUnpackCount q queryLength 16
  slUnpackUuids buf count (offset + 8)

def slUnpackCNID (buf : List UInt8) (offset length : ℕ) (enc : Encoding) :
    Except UnpackErr Node :=
  if length ≤ 16 then .ok (.cnids 0 0 [])
  else if slUnpackRangeValid buf.length offset (length - 8) = false then .error .fail
  else do
    let q ← slUnpackUint64Checked buf offset enc
    let count := tagSize q
    if count = 0 then .error .fail
    else if (length - 16) / 8 < count then .error .fail
    else do
      let ws ← slUnpackWords buf enc count (offset + 8)
      return .cnids (UInt16.ofNat (tagType q)) (UInt32.ofNat (tagVal q)) (ws.map UInt64.ofNat)

/-! ### Compound elements -/

/-- The byte order mark of a UTF-16 string. -/
inductive Bom where
  | none
  | littleEndian
  | bigEndian
deriving DecidableEq, Repr

def spotlightGetUtf16StringEncoding (buf : List UInt8) (offset queryLength : ℕ) :
    Except UnpackErr Bom :=
  if 2 ≤ queryLength then do
    let bs ← get buf offset 2
    if bs = [0xff, 0xfe] then return .littleEndian
    else if bs = [0xfe, 0xff] then return .bigEndian
    else return .none
  else .ok .none

/-- The block `dalloc_strndup` makes of some bytes. -/
def dallocStrndup (s : List UInt8) : List UInt8 := s.takeWhile (· != 0) ++ [0]

/-- A plain string of `slen` bytes at an offset. -/
def slUnpackPlain (buf : List UInt8) (offset slen tocOffset : ℕ) : Except UnpackErr Node :=
  if tocOffset < offset + 8 + slen then .error .fail
  else do
    let s ← get buf (offset + 8) slen
    return .string (dallocStrndup s)

/-- A UTF-16 string of `slen` bytes at an offset. -/
def slUnpackUtf16 (h : Host) (buf : List UInt8) (offset slen tocOffset : ℕ) :
    Except UnpackErr Node := do
  let bom ← spotlightGetUtf16StringEncoding buf (offset + 8) slen
  if bom = .bigEndian then .error .fail
  else
    let skip := if bom = .none then 0 else 2
    if slen ≤ skip ∨ tocOffset < offset + 8 + slen then .error .fail
    else do
      let s ← get buf (offset + 8 + skip) (slen - skip)
      match h.ucs2ToUtf8 s with
      | none => .error .fail
      | some tmp => return .string (dallocStrndup tmp)

/-- A string of either kind, and the offset behind it. -/
def slUnpackString (h : Host) (utf16 : Bool) (buf : List UInt8) (offset tocOffset : ℕ)
    (enc : Encoding) : Except UnpackErr (Node × ℕ) := do
  let q ← slUnpackUint64Checked buf offset enc
  let qlen := tagSize q * 8
  if 8 < tagVal q then .error .fail
  else if qlen ≤ 8 ∨ slUnpackRangeValid buf.length offset qlen = false then .error .fail
  else do
    let slen := qlen - 16 + tagVal q
    let s ← if utf16 then slUnpackUtf16 h buf offset slen tocOffset
      else slUnpackPlain buf offset slen tocOffset
    return (s, offset + qlen)

/-- File metadata, the document in it read by `sub`, and the offset behind it. -/
def slUnpackFilemeta (sub : List UInt8 → Except UnpackErr (List Node)) (buf : List UInt8)
    (offset : ℕ) (enc : Encoding) : Except UnpackErr (Node × ℕ) := do
  let q ← slUnpackUint64Checked buf offset enc
  let qlen := tagSize q * 8
  if qlen < 8 ∨ slUnpackRangeValid buf.length offset qlen = false then .error .fail
  else if qlen = 8 then return (.filemeta [], offset + qlen)
  else do
    let doc ← get buf (offset + 8) (qlen - 8)
    let xs ← sub doc
    return (.filemeta xs, offset + qlen)

/-- A CNID list, and the offset behind it. -/
def slUnpackCnids (buf : List UInt8) (offset : ℕ) (enc : Encoding) :
    Except UnpackErr (Node × ℕ) := do
  let q ← slUnpackUint64Checked buf offset enc
  let qlen := tagSize q * 8
  if qlen < 8 ∨ slUnpackRangeValid buf.length offset qlen = false then .error .fail
  else do
    let cnids ← slUnpackCNID buf (offset + 8) qlen enc
    return (cnids, offset + qlen)

/-! ### The loop -/

/-- Values that count toward the number asked for. -/
def slUnpackCounted (nodes : List Node) (offset count : ℕ) :
    Except UnpackErr (List Node × ℕ × ℕ) :=
  if count < nodes.length then .error .fail else .ok (nodes, offset, count - nodes.length)

/-- The entry a compound element refers to. -/
def slUnpackTocEntry (buf : List UInt8) (q tocOffset tocCount : ℕ) (enc : Encoding) :
    Except UnpackErr ℕ :=
  if tagVal q = 0 ∨ tocCount < tagVal q then .error .fail
  else
    let tocIndex := tagVal q - 1
    if (sizeMax - tocOffset) / 8 < tocIndex ∨ intMax < tocOffset + tocIndex * 8 ∨
        slUnpackRangeValid buf.length (tocOffset + tocIndex * 8) 8 = false then .error .fail
    else slUnpackUint64 buf (tocOffset + tocIndex * 8) enc

/-- The element with some tag at an offset: its values, the offset behind it and the number of
values still asked for. -/
def slUnpackSwitch (h : Host) (cpx : ℕ → ℕ → ℕ → Except UnpackErr (Node × ℕ)) (buf : List UInt8)
    (tocOffset tocCount : ℕ) (enc : Encoding) (q offset count : ℕ) :
    Except UnpackErr (List Node × ℕ × ℕ) :=
  let queryLength := tagSize q * 8
  if tagType q = sqTypeComplex then do
    let entry ← slUnpackTocEntry buf q tocOffset tocCount enc
    let (node, offset) ← cpx (offset + 8) (tagType entry) (tagVal entry)
    return ([node], offset, count - 1)
  else if tagType q = sqTypeNull then
    if 64 < tagVal q then .error .fail
    else slUnpackCounted (List.replicate (tagVal q) .nil) (offset + queryLength) count
  else if tagType q = sqTypeBool then
    return ([.bool (tagVal q != 0)], offset + queryLength, count - 1)
  else if tagType q = sqTypeInt64 then do
    let nodes ← slUnpackInts buf offset queryLength enc
    slUnpackCounted nodes (offset + queryLength) count
  else if tagType q = sqTypeUuid then do
    let nodes ← slUnpackUuid buf offset queryLength enc
    slUnpackCounted nodes (offset + queryLength) count
  else if tagType q = sqTypeFloat then do
    let nodes ← slUnpackFloats buf offset queryLength enc
    slUnpackCounted nodes (offset + queryLength) count
  else if tagType q = sqTypeDate then do
    let nodes ← slUnpackDate h buf offset queryLength enc
    slUnpackCounted nodes (offset + queryLength) count
  else .error .fail

/-- One round of the loop. -/
def slUnpackStep (h : Host) (cpx : ℕ → ℕ → ℕ → Except UnpackErr (Node × ℕ)) (buf : List UInt8)
    (tocOffset tocCount : ℕ) (enc : Encoding) (offset count : ℕ) :
    Except UnpackErr (List Node × ℕ × ℕ) := do
  let q ← slUnpackUint64Checked buf offset enc
  if tagSize q * 8 = 0 then .error .fail
  else if slUnpackRangeValid buf.length offset (tagSize q * 8) = false then .error .fail
  else slUnpackSwitch h cpx buf tocOffset tocCount enc q offset count

/-- The rounds of the loop, at most so many. -/
def slUnpackRounds (step : ℕ → ℕ → Except UnpackErr (List Node × ℕ × ℕ)) (tocOffset : ℕ) :
    ℕ → ℕ → ℕ → Except UnpackErr (List Node × ℕ)
  | 0, _, _ => .error .loops
  | rounds + 1, offset, count =>
    if 0 < count ∧ offset < tocOffset then do
      let (nodes, offset, count) ← step offset count
      let (rest, offset) ← slUnpackRounds step tocOffset rounds offset count
      return (nodes ++ rest, offset)
    else .ok ([], offset)

/-- The table of contents of the document in hand. -/
structure Toc where
  offset : ℕ
  count : ℕ
  enc : Encoding
deriving DecidableEq, Repr

/-- The offset of the table of contents that a header gives, in 64-bit arithmetic. -/
def tocOffset64 (q : ℕ) : ℕ := (tagVal q + 2 ^ 64 - 1) % 2 ^ 64 * 8 % 2 ^ 64

/-- The header of a document: its byte order, the bytes behind the header, and its table. -/
def slUnpackHeader (buf : List UInt8) : Except UnpackErr (List UInt8 × Toc) :=
  if buf.length < 16 then .error .fail
  else do
    let start ← get buf 0 8
    let enc := if start = magicBigEndian then Encoding.bigEndian else .littleEndian
    let q ← slUnpackUint64Checked (buf.drop 8) 0 enc
    let tocOffset := tocOffset64 q
    let buf := buf.drop 16
    if tocOffsetMax < tocOffset ∨ slUnpackRangeValid buf.length tocOffset 8 = false then
      .error .fail
    else do
      let q ← slUnpackUint64Checked buf tocOffset enc
      if tagType q ≠ sqTypeToc then .error .fail
      else if tagSize q = 0 then .error .fail
      else if uintMax < tagSize q - 1 ∨ (buf.length - (tocOffset + 8)) / 8 < tagSize q - 1 then
        .error .fail
      else return (buf, ⟨tocOffset + 8, tagSize q - 1, enc⟩)

mutual
/-- The values at an offset, and the offset behind them. -/
def slUnpackLoop (h : Host) : ℕ → List UInt8 → Toc → ℕ → ℕ → ℕ →
    Except UnpackErr (List Node × ℕ)
  | 0, _, _, _, _, _ => .error .tooDeep
  | frames + 1, buf, toc, depth, offset, count =>
    if subqSafetyLim ≤ depth then .error .fail
    else slUnpackRounds (slUnpackStep h (slUnpackCpx h frames buf toc (depth + 1)) buf toc.offset
      toc.count toc.enc) toc.offset (buf.length + 1) offset count

/-- A compound element of some type and count at an offset, and the offset behind it. -/
def slUnpackCpx (h : Host) : ℕ → List UInt8 → Toc → ℕ → ℕ → ℕ → ℕ →
    Except UnpackErr (Node × ℕ)
  | 0, _, _, _, _, _, _ => .error .tooDeep
  | frames + 1, buf, toc, depth, offset, type, count =>
    if subqSafetyLim ≤ depth then .error .fail
    else if type = sqCpxTypeArray then do
      let (xs, roffset) ← slUnpackLoop h frames buf toc (depth + 1) offset count
      return (.array xs, roffset)
    else if type = sqCpxTypeDict then do
      let (xs, roffset) ← slUnpackLoop h frames buf toc (depth + 1) offset count
      return (.dict xs, roffset)
    else if type = sqCpxTypeString then slUnpackString h false buf offset toc.offset toc.enc
    else if type = sqCpxTypeUtf16String then slUnpackString h true buf offset toc.offset toc.enc
    else if type = sqCpxTypeFilemeta then
      slUnpackFilemeta (fun doc => slUnpackR h frames doc (depth + 1)) buf offset toc.enc
    else if type = sqCpxTypeCnids then slUnpackCnids buf offset toc.enc
    else .error .fail

/-- The tree of a document. -/
def slUnpackR (h : Host) : ℕ → List UInt8 → ℕ → Except UnpackErr (List Node)
  | 0, _, _ => .error .tooDeep
  | frames + 1, buf, depth => do
      let (buf, toc) ← slUnpackHeader buf
      let (xs, _) ← slUnpackLoop h frames buf toc depth 0 1
      return xs
end

/-- The calls that may be open at once. -/
def maxFrames : ℕ := 2 * subqSafetyLim + 2

def slUnpackLen (h : Host) (buf : List UInt8) : Except UnpackErr (List Node) :=
  slUnpackR h maxFrames buf 0

/-! ### Reads stay inside the buffer -/

variable {count length q queryLength slen tocCount tocOffset : ℕ}
  {cpx : ℕ → ℕ → ℕ → Except UnpackErr (Node × ℕ)} {h : Host}

theorem slUnpackRangeValid_iff {bufLen offset : ℕ} :
    slUnpackRangeValid bufLen offset length = true ↔ offset + length ≤ bufLen := by
  unfold slUnpackRangeValid
  rw [Bool.and_eq_true, decide_eq_true_iff, decide_eq_true_iff]
  omega

section ends
variable {E : UnpackErr → Prop} (hfail : E .fail) {buf : List UInt8} {offset : ℕ} {enc : Encoding}

theorem get_ends {n : ℕ} (h : offset + n ≤ buf.length) :
    Ends (get buf offset n) E fun _ => True := by
  obtain ⟨bs, hbs, _⟩ := read_isSome h
  rw [get, hbs]
  trivial

theorem slUnpackUint64_ends (h : offset + 8 ≤ buf.length) :
    Ends (slUnpackUint64 buf offset enc) E fun _ => True := by
  refine (get_ends h).bind fun bs _ => ?_
  cases enc <;> trivial

theorem spotlightGetUtf16StringEncoding_ends (h : offset + slen ≤ buf.length) :
    Ends (spotlightGetUtf16StringEncoding buf offset slen) E fun _ => True := by
  unfold spotlightGetUtf16StringEncoding
  split_ifs with hs
  · refine (get_ends (by omega)).bind fun bs _ => ?_
    split_ifs <;> trivial
  · trivial

include hfail

theorem slUnpackUint64Checked_ends :
    Ends (slUnpackUint64Checked buf offset enc) E fun _ => offset + 8 ≤ buf.length := by
  unfold slUnpackUint64Checked
  split_ifs with h
  · rw [slUnpackRangeValid_iff] at h
    exact (slUnpackUint64_ends h).mono fun _ _ => h
  · exact hfail

theorem slUnpackCount_ends {elementSize : ℕ} :
    Ends (slUnpackCount q queryLength elementSize) E fun _ => True := by
  unfold slUnpackCount
  split_ifs
  · exact hfail
  · exact hfail
  · trivial

theorem slUnpackWords_ends : Ends (slUnpackWords buf enc count offset) E fun _ => True := by
  induction count generalizing offset with
  | zero => trivial
  | succ count ih =>
    exact (slUnpackUint64Checked_ends hfail).bind fun _ _ => ih.bind fun _ _ => trivial

theorem slUnpackValues_ends {value : UInt64 → Node} :
    Ends (slUnpackValues value buf offset queryLength enc) E fun _ => True :=
  (slUnpackUint64Checked_ends hfail).bind fun _ _ =>
    (slUnpackCount_ends hfail).bind fun _ _ => (slUnpackWords_ends hfail).bind fun _ _ => trivial

theorem slUnpackUuids_ends : Ends (slUnpackUuids buf count offset) E fun _ => True := by
  induction count generalizing offset with
  | zero => trivial
  | succ count ih =>
    rw [slUnpackUuids]
    split_ifs with h
    · exact (get_ends (slUnpackRangeValid_iff.mp h)).bind fun _ _ => ih.bind fun _ _ => trivial
    · exact hfail

theorem slUnpackUuid_ends : Ends (slUnpackUuid buf offset queryLength enc) E fun _ => True :=
  (slUnpackUint64Checked_ends hfail).bind fun _ _ =>
    (slUnpackCount_ends hfail).bind fun _ _ => slUnpackUuids_ends hfail

theorem slUnpackCNID_ends : Ends (slUnpackCNID buf offset length enc) E fun _ => True := by
  unfold slUnpackCNID
  split_ifs
  · trivial
  · exact hfail
  refine (slUnpackUint64Checked_ends hfail).bind fun q _ => ?_
  dsimp only
  split_ifs
  · exact hfail
  · exact hfail
  · exact (slUnpackWords_ends hfail).bind fun _ _ => trivial

theorem slUnpackPlain_ends (h : offset + 8 + slen ≤ buf.length) :
    Ends (slUnpackPlain buf offset slen tocOffset) E fun _ => True := by
  unfold slUnpackPlain
  split_ifs
  · exact hfail
  · exact (get_ends h).bind fun _ _ => trivial

theorem slUnpackUtf16_ends (hs : offset + 8 + slen ≤ buf.length) :
    Ends (slUnpackUtf16 h buf offset slen tocOffset) E fun _ => True := by
  refine (spotlightGetUtf16StringEncoding_ends hs).bind fun bom _ => ?_
  by_cases hbe : bom = .bigEndian
  · rw [if_pos hbe]
    exact hfail
  dsimp only
  generalize (if bom = Bom.none then 0 else 2) = skip
  split_ifs with hle
  · exact hfail
  refine (get_ends (by omega)).bind fun s _ => ?_
  cases h.ucs2ToUtf8 s with
  | none => exact hfail
  | some => trivial

theorem slUnpackString_ends {utf16 : Bool} :
    Ends (slUnpackString h utf16 buf offset tocOffset enc) E fun r => offset ≤ r.2 := by
  refine (slUnpackUint64Checked_ends hfail).bind fun q _ => ?_
  dsimp only
  split_ifs with hused hlen hutf
  · exact hfail
  · exact hfail
  all_goals
    rw [not_or, Bool.not_eq_false, slUnpackRangeValid_iff] at hlen
  · exact (slUnpackUtf16_ends hfail (by omega)).bind fun _ _ => Nat.le_add_right _ _
  · exact (slUnpackPlain_ends hfail (by omega)).bind fun _ _ => Nat.le_add_right _ _

theorem slUnpackFilemeta_ends {sub : List UInt8 → Except UnpackErr (List Node)}
    (hsub : ∀ doc, Ends (sub doc) E fun _ => True) :
    Ends (slUnpackFilemeta sub buf offset enc) E fun r => offset ≤ r.2 := by
  refine (slUnpackUint64Checked_ends hfail).bind fun q _ => ?_
  dsimp only
  split_ifs with hlen h8
  · exact hfail
  · exact Nat.le_add_right _ _
  · rw [not_or, Bool.not_eq_false, slUnpackRangeValid_iff] at hlen
    exact (get_ends (by omega)).bind fun doc _ =>
      (hsub doc).bind fun _ _ => Nat.le_add_right _ _

theorem slUnpackCnids_ends : Ends (slUnpackCnids buf offset enc) E fun r => offset ≤ r.2 := by
  refine (slUnpackUint64Checked_ends hfail).bind fun q _ => ?_
  dsimp only
  split_ifs with hlen
  · exact hfail
  · exact (slUnpackCNID_ends hfail).bind fun _ _ => Nat.le_add_right _ _

theorem slUnpackTocEntry_ends :
    Ends (slUnpackTocEntry buf q tocOffset tocCount enc) E fun _ => True := by
  unfold slUnpackTocEntry
  dsimp only
  split_ifs with hidx hrange
  · exact hfail
  · exact hfail
  · simp only [not_or, Bool.not_eq_false, slUnpackRangeValid_iff] at hrange
    exact slUnpackUint64_ends hrange.2.2

theorem slUnpackCounted_ends {nodes : List Node} :
    Ends (slUnpackCounted nodes offset count) E fun r => r.2.1 = offset := by
  unfold slUnpackCounted
  split_ifs
  · exact hfail
  · rfl

section
variable (hcpx : ∀ offset type count, Ends (cpx offset type count) E fun r => offset ≤ r.2)
include hcpx

theorem slUnpackSwitch_ends (hq : tagSize q * 8 ≠ 0) :
    Ends (slUnpackSwitch h cpx buf tocOffset tocCount enc q offset count) E
      fun r => offset + 8 ≤ r.2.1 := by
  have hcounted : ∀ nodes : List Node,
      Ends (slUnpackCounted nodes (offset + tagSize q * 8) count) E
        fun r => offset + 8 ≤ r.2.1 :=
    fun nodes => (slUnpackCounted_ends hfail).mono fun r hr => by omega
  unfold slUnpackSwitch
  split_ifs with hcomplex hnull hmany hbool hint huuid hfloat hdate
  · exact (slUnpackTocEntry_ends hfail).bind fun entry _ => (hcpx _ _ _).bind fun r hr => hr
  · exact hfail
  · exact hcounted _
  · show offset + 8 ≤ offset + tagSize q * 8
    omega
  · exact (slUnpackValues_ends hfail).bind fun nodes _ => hcounted nodes
  · exact (slUnpackUuid_ends hfail).bind fun nodes _ => hcounted nodes
  · exact (slUnpackValues_ends hfail).bind fun nodes _ => hcounted nodes
  · exact (slUnpackValues_ends hfail).bind fun nodes _ => hcounted nodes
  · exact hfail

/-- A round stays inside the buffer and advances the offset. -/
theorem slUnpackStep_ends : Ends (slUnpackStep h cpx buf tocOffset tocCount enc offset count) E
      fun r => offset + 8 ≤ r.2.1 ∧ offset + 8 ≤ buf.length := by
  refine (slUnpackUint64Checked_ends hfail).bind fun q hq => ?_
  split_ifs with hzero hrange
  · exact hfail
  · exact hfail
  · exact (slUnpackSwitch_ends hfail hcpx hzero).mono fun r hr => ⟨hr, hq⟩

end

omit hfail in
/-- The loop ends before its rounds are used up: each of them takes bytes of the buffer. -/
theorem slUnpackRounds_ends {step : ℕ → ℕ → Except UnpackErr (List Node × ℕ × ℕ)}
    (hstep : ∀ offset count, Ends (step offset count) E
      fun r => offset + 8 ≤ r.2.1 ∧ offset + 8 ≤ buf.length)
    {rounds : ℕ} (hpos : 0 < rounds) (hr : buf.length < offset + rounds) :
    Ends (slUnpackRounds step tocOffset rounds offset count) E fun r => offset ≤ r.2 := by
  induction rounds generalizing offset count with
  | zero => omega
  | succ rounds ih =>
    rw [slUnpackRounds]
    split_ifs with hgo
    · refine (hstep offset count).bind fun ⟨nodes, offset', count'⟩ ⟨hadv, hin⟩ => ?_
      dsimp only at hadv
      exact (ih (by omega) (by omega)).bind fun r' hr' => le_trans (by omega) hr'
    · exact le_refl offset

theorem slUnpackHeader_ends : Ends (slUnpackHeader buf) E fun _ => True := by
  unfold slUnpackHeader
  split_ifs with hsmall
  · exact hfail
  refine (get_ends (by omega)).bind fun start _ => ?_
  refine (slUnpackUint64Checked_ends hfail).bind fun q _ => ?_
  generalize (if start = magicBigEndian then Encoding.bigEndian else .littleEndian) = enc
  generalize tocOffset64 q = tocOffset
  dsimp only
  split_ifs
  · exact hfail
  refine (slUnpackUint64Checked_ends hfail).bind fun q' _ => ?_
  split_ifs
  · exact hfail
  · exact hfail
  · exact hfail
  · trivial

end ends

/-! ### Whole documents -/

/-- The frames that are enough from some depth on. -/
def framesFrom (depth : ℕ) : ℕ := 2 * (subqSafetyLim - depth) + 1

/-- All calls of a frame bound: reads stay inside, offsets never move back, and nothing is cut
off if the bound is large enough. -/
structure FramesEnd (h : Host) (E : UnpackErr → Prop) (frames : ℕ) : Prop where
  loop : ∀ buf toc depth offset count, E .tooDeep ∨ framesFrom depth ≤ frames →
    Ends (slUnpackLoop h frames buf toc depth offset count) E fun r => offset ≤ r.2
  cpx : ∀ buf toc depth offset type count, E .tooDeep ∨ framesFrom depth ≤ frames →
    Ends (slUnpackCpx h frames buf toc depth offset type count) E fun r => offset ≤ r.2
  doc : ∀ buf depth, E .tooDeep ∨ framesFrom depth + 1 ≤ frames →
    Ends (slUnpackR h frames buf depth) E fun _ => True

theorem framesEnd_zero (h : Host) (E : UnpackErr → Prop) : FramesEnd h E 0 := by
  constructor
  all_goals
    intros
    unfold framesFrom at *
  · rw [slUnpackLoop]
    exact Or.resolve_right (by assumption) (by omega)
  · rw [slUnpackCpx]
    exact Or.resolve_right (by assumption) (by omega)
  · rw [slUnpackR]
    exact Or.resolve_right (by assumption) (by omega)

theorem framesEnd_succ {E : UnpackErr → Prop} (hfail : E .fail) {frames : ℕ}
    (ih : FramesEnd h E frames) : FramesEnd h E (frames + 1) where
  loop buf toc depth offset count hf := by
    unfold framesFrom subqSafetyLim at hf
    rw [slUnpackLoop]
    unfold subqSafetyLim
    split_ifs with hlim
    · exact hfail
    refine slUnpackRounds_ends (fun offset count => slUnpackStep_ends hfail ?_) (by omega)
      (by omega)
    intro offset type count
    exact ih.cpx _ _ _ _ _ _ (hf.imp_right fun _ => by unfold framesFrom subqSafetyLim; omega)
  cpx buf toc depth offset type count hf := by
    unfold framesFrom subqSafetyLim at hf
    rw [slUnpackCpx]
    by_cases hlim : subqSafetyLim ≤ depth
    · rw [if_pos hlim]
      exact hfail
    rw [if_neg hlim]
    unfold subqSafetyLim at hlim
    have hloop := ih.loop buf toc (depth + 1) offset count
      (hf.imp_right fun _ => by unfold framesFrom subqSafetyLim; omega)
    have hdoc : ∀ doc, Ends (slUnpackR h frames doc (depth + 1)) E fun _ => True := fun doc =>
      ih.doc doc (depth + 1) (hf.imp_right fun _ => by unfold framesFrom subqSafetyLim; omega)
    split_ifs
    · exact hloop.bind fun r hr => hr
    · exact hloop.bind fun r hr => hr
    · exact slUnpackString_ends hfail
    · exact slUnpackString_ends hfail
    · exact slUnpackFilemeta_ends hfail hdoc
    · exact slUnpackCnids_ends hfail
    · exact hfail
  doc buf depth hf := by
    rw [slUnpackR]
    refine (slUnpackHeader_ends hfail).bind fun r _ => ?_
    exact (ih.loop _ _ _ _ _ (hf.imp_right fun _ => by omega)).bind fun _ _ => trivial

theorem framesEnd (h : Host) {E : UnpackErr → Prop} (hfail : E .fail) (frames : ℕ) :
    FramesEnd h E frames := by
  induction frames with
  | zero => exact framesEnd_zero h E
  | succ frames ih => exact framesEnd_succ hfail ih

/-- Unpacking any buffer ends with a tree or `-1`: it never reads outside the buffer, no loop
and no recursion is cut off, and every round of the loop advances the offset. -/
theorem slUnpackLen_safe (h : Host) (buf : List UInt8) :
    ((∃ xs, slUnpackLen h buf = .ok xs) ∨ slUnpackLen h buf = .error .fail) ∧
      ∀ (frames : ℕ) (doc : List UInt8) (toc : Toc) (depth offset count : ℕ) (xs : List Node)
        (offset' count' : ℕ),
        slUnpackStep h (slUnpackCpx h frames doc toc depth) doc toc.offset toc.count toc.enc offset
          count = .ok (xs, offset', count') → offset < offset' := by
  constructor
  · have hends := (framesEnd h (E := (· = .fail)) rfl maxFrames).doc buf 0 (.inr (by decide))
    rcases hends.cases with hok | ⟨e, rfl, he⟩
    · exact .inl hok
    · exact .inr he
  · intro frames doc toc depth offset count xs offset' count' hok
    have hcpx := (framesEnd h (E := fun _ => True) trivial frames).cpx doc toc depth
    obtain ⟨hadv, _⟩ := (slUnpackStep_ends trivial fun offset type count =>
      hcpx offset type count (.inl trivial)).of_ok hok
    dsimp only at hadv
    omega

end Netatalk.Spotlight
