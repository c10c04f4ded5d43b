import Netatalk.Bytes
import Netatalk.Fallible

/-! # Packing Spotlight replies

The model of the marshalling half of `etc/afpd/spotlight_marshalling.c`: a tree of values becomes
a packed document, a header, the data of the elements and a table of contents with one entry for
each compound element.

The output buffer is the list of the bytes the callee was handed, the table of contents a buffer
of `MAX_SLQ_TOC` bytes on the stack of `sl_pack_len`, passed on from its ninth byte.  A write
outside either of them is a fault of its own, apart from the `-1` of a value that does not fit.
The conversion of times to doubles belongs to the host. -/

namespace Netatalk.Spotlight

open Netatalk.Bytes Netatalk.Fallible

/-! ### Values -/

/-- A point of time, `struct timeval`. -/
structure Time where
  sec : ℤ
  usec : ℤ
deriving DecidableEq, Repr

/-- A value of a query tree, by the name of its talloc block.  A string is its whole block. -/
inductive Node where
  | array (xs : List Node)
  | dict (xs : List Node)
  | filemeta (xs : List Node)
  | uint64 (v : UInt64)
  | string (block : List UInt8)
  | bool (b : Bool)
  | double (bits : UInt64)
  | nil
  | date (t : Time)
  | uuid (u : Vector UInt8 16)
  | cnids (unkn1 : UInt16) (context : UInt32) (ids : List UInt64)
  | other

/-- What the host adds: the conversion of times and strings, and what the stack held before. -/
structure Host where
  dateBits : Time → UInt64
  bitsDate : UInt64 → Time
  ucs2ToUtf8 : List UInt8 → Option (List UInt8)
  stack : Vector UInt8 8192

/-! ### Constants -/

def maxSlqDat : ℕ := 65536 - 64
def maxSlqToc : ℕ := 8192
def slOffsetDelta : ℕ := 16
def intMax : ℕ := 2147483647

def sqTypeNull : ℕ := 0x0000
def sqTypeComplex : ℕ := 0x0200
def sqTypeInt64 : ℕ := 0x8400
def sqTypeBool : ℕ := 0x0100
def sqTypeFloat : ℕ := 0x8500
def sqTypeData : ℕ := 0x0700
def sqTypeCnids : ℕ := 0x8700
def sqTypeUuid : ℕ := 0x0e00
def sqTypeDate : ℕ := 0x8600
def sqTypeToc : ℕ := 0x8800

def sqCpxTypeArray : ℕ := 0x0a00
def sqCpxTypeString : ℕ := 0x0c00
def sqCpxTypeUtf16String : ℕ := 0x1c00
def sqCpxTypeDict : ℕ := 0x0d00
def sqCpxTypeCnids : ℕ := 0x1a00
def sqCpxTypeFilemeta : ℕ := 0x1b00

/-- The magic of a little-endian document, `432130dm`. -/
def magic : List UInt8 := [0x34, 0x33, 0x32, 0x31, 0x33, 0x30, 0x64, 0x6d]

/-! ### Bounded writes -/

/-- The two memory objects of the packer. -/
inductive Obj where
  | data
  | toc
deriving DecidableEq, Repr

/-- Why a call yields no document: it returns `-1`, or it leaves a memory object. -/
inductive Err where
  | fail
  | wild (o : Obj)
deriving DecidableEq, Repr

/-- A copy of bytes into a memory object. -/
def put (o : Obj) (buf : List UInt8) (off : ℕ) (bs : List UInt8) : Except Err (List UInt8) :=
  match write buf off bs with
  | some buf => .ok buf
  | none => .error (.wild o)

/-- A 32-bit value, if it ends before `maxoff`. -/
def sivalc (o : Obj) (buf : List UInt8) (off maxoff val : ℕ) : Except Err (List UInt8) :=
  if maxoff < off + 4 then .error .fail else put o buf off (leBytes 4 val)

/-- The bytes of a 64-bit value. -/
def word (w : ℕ) : List UInt8 := leBytes 8 w

@[simp] theorem length_word (w : ℕ) : (word w).length = 8 := length_leBytes 8 w

/-- A 64-bit value, if it ends before `maxoff`. -/
def slvalc (o : Obj) (buf : List UInt8) (off maxoff val : ℕ) : Except Err (List UInt8) :=
  if maxoff < off + 8 then .error .fail else put o buf off (word val)

/-- The tag of an element; the arguments are cut to 16, 16 and 32 bits. -/
def slPackTag (type sizeOrCount val : ℕ) : ℕ :=
  val % 2 ^ 32 * 2 ^ 32 + type % 2 ^ 16 * 2 ^ 16 + sizeOrCount % 2 ^ 16

/-! ### Elements -/

/-- The packer between two elements: the data and the entries so far, and where it stands. -/
structure Pack where
  buf : List UInt8
  toc : List UInt8
  tocIdx : ℕ
  offset : ℕ
deriving DecidableEq, Repr

/-- An element that is a lone tag. -/
def slPackLone (tag maxoff : ℕ) (p : Pack) : Except Err Pack := do
  let buf ← slvalc .data p.buf p.offset maxoff tag
  return { p with
    buf := buf
    offset := p.offset + 8 }

def slPackBool (bl : Bool) : ℕ → Pack → Except Err Pack :=
  slPackLone (slPackTag sqTypeBool 1 (if bl then 1 else 0))

def slPackNil : ℕ → Pack → Except Err Pack := slPackLone (slPackTag sqTypeNull 1 1)

/-- An element that is a tag and one word. -/
def slPackWord (type : ℕ) (w : UInt64) (maxoff : ℕ) (p : Pack) : Except Err Pack := do
  let buf ← slvalc .data p.buf p.offset maxoff (slPackTag type 2 1)
  let buf ← slvalc .data buf (p.offset + 8) maxoff w.toNat
  return { p with
    buf := buf
    offset := p.offset + 16 }

def slPackFloat (d : UInt64) : ℕ → Pack → Except Err Pack := slPackWord sqTypeFloat d

def slPackUint64 (u : UInt64) : ℕ → Pack → Except Err Pack := slPackWord sqTypeInt64 u

def slPackDate (h : Host) (t : Time) : ℕ → Pack → Except Err Pack :=
  slPackWord sqTypeDate (h.dateBits t)

def slPackUuid (u : Vector UInt8 16) (maxoff : ℕ) (p : Pack) : Except Err Pack := do
  let buf ← slvalc .data p.buf p.offset maxoff (slPackTag sqTypeUuid 3 1)
  if maxoff < p.offset + 24 then .error .fail
  else do
    let buf ← put .data buf (p.offset + 8) u.toList
    return { p with
      buf := buf
      offset := p.offset + 24 }

/-- The entry of a compound element in the table of contents, and the tag that refers to it. -/
def slPackEntry (type val maxoff : ℕ) (p : Pack) : Except Err Pack := do
  let toc ← slvalc .toc p.toc (p.tocIdx * 8) maxSlqToc
    (slPackTag type ((p.offset + slOffsetDelta) / 8) val)
  let buf ← slvalc .data p.buf p.offset maxoff (slPackTag sqTypeComplex 1 (p.tocIdx + 1))
  return { buf := buf, toc := toc, tocIdx := p.tocIdx + 1, offset := p.offset + 8 }

/-- The CNIDs of a list, word by word. -/
def slPackIds (maxoff : ℕ) : List UInt64 → Pack → Except Err Pack
  | [], p => .ok p
  | id :: ids, p => do
      let p ← slPackLone id.toNat maxoff p
      slPackIds maxoff ids p

def slPackCNID (unkn1 : UInt16) (context : UInt32) (ids : List UInt64) (maxoff : ℕ) (p : Pack) :
    Except Err Pack := do
  let cnidCount := ids.length
  let p ← slPackEntry sqCpxTypeCnids 0 maxoff p
  let len := if 0 < cnidCount then cnidCount + 2 else cnidCount + 1
  let p ← slPackLone (slPackTag sqTypeCnids len 8) maxoff p
  if 0 < cnidCount then
    let p ← slPackLone (slPackTag unkn1.toNat cnidCount context.toNat) maxoff p
    slPackIds maxoff ids p
  else
    return p

/-- A compound element that counts its members, followed by them. -/
def slPackMembers (type count : ℕ) (loop : ℕ → Pack → Except Err Pack) (maxoff : ℕ) (p : Pack) :
    Except Err Pack := do
  let p ← slPackEntry type count maxoff p
  loop maxoff p

def slPackArray : ℕ → (ℕ → Pack → Except Err Pack) → ℕ → Pack → Except Err Pack :=
  slPackMembers sqCpxTypeArray

def slPackDict : ℕ → (ℕ → Pack → Except Err Pack) → ℕ → Pack → Except Err Pack :=
  slPackMembers sqCpxTypeDict

/-- A nested document behind a data tag.  One of at most 40 bytes is left out; its entry is
written last. -/
def slPackFilemeta (len : List UInt8 → ℕ → Except Err (List UInt8 × ℕ)) (maxoff : ℕ) (p : Pack) :
    Except Err Pack := do
  let buf ← slvalc .data p.buf p.offset maxoff (slPackTag sqTypeComplex 1 (p.tocIdx + 1))
  let offset := p.offset + 16
  if maxoff ≤ offset + 16 then .error .fail
  else do
    let (sub, fmlen) ← len (buf.drop offset) (maxoff - offset)
    let buf := buf.take offset ++ sub
    let fmlen := if 40 < fmlen then fmlen else 0
    let buf ← slvalc .data buf (p.offset + 8) maxoff (slPackTag sqTypeData (fmlen / 8 + 1) 8)
    let toc ← slvalc .toc p.toc (p.tocIdx * 8) maxSlqToc
      (slPackTag sqCpxTypeFilemeta ((p.offset + slOffsetDelta) / 8) (fmlen / 8))
    return { buf := buf, toc := toc, tocIdx := p.tocIdx + 1, offset := offset + fmlen }

/-- The bytes of a block before its first NUL. -/
def strnlen (block : List UInt8) : ℕ := (block.takeWhile (· != 0)).length

/-- The 8-byte units a string takes, and the bytes used in the last of them. -/
def octets (len : ℕ) : ℕ := len / 8 + if len % 8 = 0 then 0 else 1

def usedInLastOctet (len : ℕ) : ℕ := if len % 8 = 0 then 8 else len % 8

def slPackString (block : List UInt8) (maxoff : ℕ) (p : Pack) : Except Err Pack :=
  let len := strnlen block
  if block.length = 0 ∨ len = block.length ∨ intMax < len then .error .fail
  else do
    let p ← slPackEntry sqCpxTypeString (usedInLastOctet len) maxoff p
    let p ← slPackLone (slPackTag sqTypeData (octets len + 1) (usedInLastOctet len)) maxoff p
    if (maxoff - p.offset) / 8 < octets len then .error .fail
    else do
      let buf ← put .data p.buf p.offset (List.replicate (octets len * 8) 0)
      let buf ← put .data buf p.offset (block.take len)
      return { p with
        buf := buf
        offset := p.offset + octets len * 8 }

/-! ### Documents -/

/-- The table of contents behind the data of a document, whose header it completes. -/
def slPackToc (buf tocBuf : List UInt8) (len tocIndex maxoff : ℕ) :
    Except Err (List UInt8 × ℕ) := do
  let buf ← sivalc .data buf 8 maxoff (len / 8 + 1 + tocIndex + 1)
  let buf ← sivalc .data buf 12 maxoff (len / 8 + 1)
  let tocBuf ← slvalc .toc tocBuf 0 maxSlqToc (slPackTag sqTypeToc (tocIndex + 1) 0)
  let tocLen := (tocIndex + 1) * 8
  if maxoff ≤ 16 + len + tocLen then .error .fail
  else
    match read tocBuf 0 tocLen with
    | none => .error (.wild .toc)
    | some entries => do
        let buf ← put .data buf (16 + len) entries
        return (buf, len + 16 + tocLen)

/-- A document: the elements behind the header, then the table of contents. -/
def slPackLenOf (h : Host) (loop : ℕ → Pack → Except Err Pack) (buf : List UInt8) (maxoff : ℕ) :
    Except Err (List UInt8 × ℕ) :=
  let tocBuf := h.stack.toList
  if maxoff ≤ 16 then .error .fail
  else do
    let buf ← put .data buf 0 magic
    let p ← loop (maxoff - 16) ⟨buf.drop 16, tocBuf.drop 8, 0, 0⟩
    slPackToc (buf.take 16 ++ p.buf) (tocBuf.take 8 ++ p.toc) p.offset p.tocIdx maxoff

mutual
/-- One element, by its type; a value of an unknown type is skipped. -/
def slPackNode (h : Host) : Node → ℕ → Pack → Except Err Pack
  | .array xs => slPackArray xs.length (slPackLoop h xs)
  | .dict xs => slPackDict xs.length (slPackLoop h xs)
  | .filemeta xs => slPackFilemeta (slPackLenOf h (slPackLoop h xs))
  | .uint64 v => slPackUint64 v
  | .string block => slPackString block
  | .bool b => slPackBool b
  | .double bits => slPackFloat bits
  | .nil => slPackNil
  | .date t => slPackDate h t
  | .uuid u => slPackUuid u
  | .cnids unkn1 context ids => slPackCNID unkn1 context ids
  | .other => fun _ p => .ok p

/-- The elements of a list, one after the other. -/
def slPackLoop (h : Host) : List Node → ℕ → Pack → Except Err Pack
  | [], _, p => .ok p
  | x :: xs, maxoff, p => do
      let p ← slPackNode h x maxoff p
      slPackLoop h xs maxoff p
end

/-- The packed document of a tree, in the buffer and with its length. -/
def slPackLen (h : Host) (query : List Node) (buf : List UInt8) (maxoff : ℕ) :
    Except Err (List UInt8 × ℕ) :=
  slPackLenOf h (slPackLoop h query) buf maxoff

def slPack (h : Host) (query : List Node) (buf : List UInt8) : Except Err (List UInt8 × ℕ) :=
  slPackLen h query buf maxSlqDat

end Netatalk.Spotlight
