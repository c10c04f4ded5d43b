import Netatalk.Bytes
import Netatalk.HexNumber

/-! # Mangled names

The model of `mangle` and `private_demangle` (`etc/afpd/mangle.c`), of `utompath`
(`etc/afpd/desktop.c`), which gives the name that a client sees, and of `set_name`
(`etc/afpd/file.c`), which puts it into a reply.

* **Strings.**  A `Name` is a C string without its NUL.  A converted name can hold a NUL, where
  the string functions stop (`cstr`).
* **Conversion.**  `convertCharset` is `convert_charset` on the charsets of the volume: the bytes
  and the flags after the call, or none for -1.  It leaves room for two NULs, and a dot in front
  stays a dot.
* **Lookups.**  `Lookups` holds what the dircache, `pfd_ostat`, the CNID database and
  `demangle_checks` answer.
* **The answer.**  `privateDemangle` gives the name on disk with the CNID, or none where the code
  returns its argument. -/

namespace Netatalk.Mangle

open Bytes HexNumber

abbrev Name := List UInt8

/-- A CNID in host order. -/
abbrev Cnid := ℕ

/-- `MANGLE_CHAR`, a `#`. -/
def mangleChar : UInt8 := 35

def maxExtLength : ℕ := 5
def mangleLength : ℕ := 9
def cnidStart : Cnid := 17
def macfilelen : ℕ := 31
def utf8filelenEarly : ℕ := 255
def maxpathlen : ℕ := 4096

/-- The charsets of the calls: `CH_UCS2`, `v_volcharset`, `v_maccharset` and `CH_UTF8_MAC`. -/
inductive Charset where
  | ucs2
  | vol
  | mac
  | utf8Mac
deriving DecidableEq, Repr

def convUnescapehex : UInt16 := (1 : UInt16) <<< 3
def convForce : UInt16 := (1 : UInt16) <<< 8
def convReqmangle : UInt16 := (1 : UInt16) <<< 14

/-- The conversions between the charsets of a volume. -/
structure Conversion where
  convertCharset (fromSet toSet capCharset : Charset) (src : Name) (destLen : ℕ) (flags : UInt16) :
    Option (List UInt8 × UInt16)
  length_convertCharset : ∀ {fromSet toSet cap src destLen flags bs flags'},
    convertCharset fromSet toSet cap src destLen flags = some (bs, flags') →
      bs.length + 2 ≤ destLen

/-- The volume of the names, in a session. -/
structure Volume extends Conversion where
  -- `utf8_encoding`: the session is one of AFP 3
  utf8Encoding : Bool
  kTextEncoding : ℕ
  utomFlags : UInt16
  head_convertCharset : ∀ {toSet src destLen bs flags'},
    convertCharset .vol toSet .mac (46 :: src) destLen (convForce ||| convUnescapehex) =
      some (bs, flags') → bs = [] ∨ bs.head? = some 46

instance : Coe Volume Conversion := ⟨Volume.toConversion⟩

/-- The string in a buffer. -/
def cstr (bs : List UInt8) : Name := bs.takeWhile (· ≠ 0)

/-- `strrchr`: the rest of the string from the last `c` on. -/
def strrchr (c : UInt8) : Name → Option Name
  | [] => none
  | b :: bs =>
    match strrchr c bs with
    | some p => some p
    | none => if b = c then some (b :: bs) else none

/-- The charset and the limit of a name for the client. -/
def clientCharset (utf8 : Bool) : Charset := if utf8 then .utf8Mac else .mac

def nameLimit (utf8 : Bool) : ℕ := if utf8 then utf8filelenEarly else macfilelen

section
variable (vol : Conversion)

/-- The bytes of the converted extension, none without one. -/
def mangleExtension (uname : Name) (charset : Charset) : List UInt8 :=
  match strrchr 46 uname with
  | none => []
  | some p =>
    if p = uname then []
    else
      match vol.convertCharset .vol charset .mac p (maxExtLength + 2)
          (convForce ||| convUnescapehex) with
      | some (ext, _) => ext
      | none => []

/-- What a mangled name keeps of the name, in front of `#`. -/
def mangleStart (filename : List UInt8) (uname : Name) (utf8 : Bool) (tail : ℕ) : Name :=
  let m :=
    if nameLimit utf8 < filename.length + tail then
      match vol.convertCharset .vol (clientCharset utf8) .mac uname (nameLimit utf8 - tail + 2)
          (convForce ||| convUnescapehex) with
      | some (bs, _) => cstr bs
      | none => []
    else cstr filename
  if m = [] then [63, 63, 63] else m

/-- `mangle`, with its two flags. -/
def mangle (filename : List UInt8) (uname : Name) (id : Cnid) (force utf8 : Bool) : Option Name :=
  if force = false ∧ filename.length ≤ nameLimit utf8 then some (cstr filename)
  else if id = 0 then none
  else
    let ext := mangleExtension vol uname (clientCharset utf8)
    let suffix := mangleChar :: print id
    some (mangleStart vol filename uname utf8 (suffix.length + ext.length) ++
      suffix ++ cstr ext)

/-- The buffers of `mangle`: `ext`, `mangle_suffix` and one half of `mfilename`. -/
inductive Buffer where
  | ext
  | suffix
  | mfilename

def Buffer.size : Buffer → ℕ
  | .ext => maxExtLength + 2
  | .suffix => mangleLength + 1
  | .mfilename => maxpathlen + 2

/-- The writes of `mangle` with their offsets and lengths.  A conversion may use all of its room;
a string is written with its NUL. -/
def mangleWrites (filename : List UInt8) (uname : Name) (id : Cnid) (force utf8 : Bool) :
    List (Buffer × ℕ × ℕ) :=
  if (force = false ∧ filename.length ≤ nameLimit utf8) ∨ id = 0 then []
  else
    let ext := mangleExtension vol uname (clientCharset utf8)
    let suffix := mangleChar :: print id
    let tail := suffix.length + ext.length
    let room := nameLimit utf8 - tail + 2
    let m := mangleStart vol filename uname utf8 tail
    [(.ext, 0, maxExtLength + 2), (.suffix, 0, suffix.length + 1)] ++
      (if nameLimit utf8 < filename.length + tail then
        [(.mfilename, 0, room),
          (.mfilename, ((vol.convertCharset .vol (clientCharset utf8) .mac uname room
            (convForce ||| convUnescapehex)).map fun r => r.1.length).getD 0, 1)]
      else [(.mfilename, 0, filename.length + 1)]) ++
      -- the question marks, the suffix and the extension
      [(.mfilename, 0, m.length + 1), (.mfilename, m.length, suffix.length + 1),
        (.mfilename, m.length + suffix.length, (cstr ext).length + 1)]

end

section
variable (vol : Volume)

/-- The name on disk as the client sees it, or none for NULL. -/
def utompath (upath : Name) (id : Cnid) (utf8 : Bool) : Option Name :=
  match vol.convertCharset .vol (clientCharset utf8) .mac upath (maxpathlen + 2) vol.utomFlags with
  | some (m, flags) => mangle vol m upath id (flags &&& convReqmangle ≠ 0) utf8
  | none => mangle vol [63, 63, 63] upath id true utf8

/-- The bytes that `set_name` appends to a reply, for a name in the encoding of the session. -/
def setName (name uname : Name) (id : Cnid) (utf8 : Bool) : List UInt8 :=
  if utf8 then
    let aint := min name.length utf8filelenEarly
    beBytes 4 vol.kTextEncoding ++ beBytes 2 aint ++ name.take aint
  else
    -- a Mac name is wanted, and the name of an AFP 3 session is not one
    let src := if vol.utf8Encoding then (utompath vol uname id false).getD [] else name
    let aint := min src.length macfilelen
    aint.toUInt8 :: src.take aint

end

/-- The CNID behind a `#`, with the extension after it. -/
def mangledId (t : Name) : Option (Cnid × Name) :=
  if t.head? = some 48 then none
  else
    let (id, ext) := scan (mangleLength - 1) 0 t
    if (ext ≠ [] ∧ ext.head? ≠ some 46) ∨ maxExtLength < ext.length ∨ id < cnidStart then none
    else some (id, ext)

/-- The fields of a dircache entry. -/
structure Entry where
  dPdid : Cnid
  dUName : Name
  isFile : Bool
  dcacheIno : ℕ
  dcacheCtime : ℕ
deriving DecidableEq, Repr

structure Stat where
  stIno : ℕ
  stCtime : ℕ
deriving DecidableEq, Repr

/-- What the lookups of a demangling answer. -/
structure Lookups where
  dircacheLookupDid : Cnid → Option Entry
  pfdOstat : Entry → Option Stat
  cnidResolve : Cnid → Option (Cnid × Name)
  demangleChecks : Name → Name → ℕ → Name → Bool

/-- The entry is still that of the object on disk. -/
def Lookups.fresh (env : Lookups) (dir : Entry) : Bool :=
  match env.pfdOstat dir with
  | none => false
  | some st => st.stIno = dir.dcacheIno && (!dir.isFile || st.stCtime = dir.dcacheCtime)

/-- The name of the object `id` in `did`. -/
def Lookups.resolve (env : Lookups) (did id : Cnid) : Option Name :=
  match (env.dircacheLookupDid id).filter env.fresh with
  | some dir => if dir.dPdid = did then some dir.dUName else none
  | none =>
    match env.cnidResolve id with
    | some (pdid, uName) => if pdid = did then some uName else none
    | none => none

section
variable (vol : Volume) (env : Lookups) (mfilename : Name) (did : Cnid) (osx : Bool)

/-- One turn of the loop: the object that the byte at `hash` introduces. -/
def candidate (hash : ℕ) : Option (Name × Cnid) :=
  if mfilename[hash]? = some mangleChar then
    match mangledId (mfilename.drop (hash + 1)) with
    | none => none
    | some (id, ext) =>
      match env.resolve did id with
      | none => none
      | some uName =>
        if utompath vol uName id vol.utf8Encoding = some mfilename ∨
            osx = true ∧ env.demangleChecks uName mfilename hash ext = true then
          some (uName, id)
        else none
  else none

/-- The loop of `private_demangle`, from `hash` bytes after `first` down to it. -/
def demangleFrom (first : ℕ) : ℕ → Option (Name × Cnid)
  | 0 => none
  | hash + 1 =>
    match candidate vol env mfilename did osx (first + hash) with
    | some found => some found
    | none => demangleFrom first hash

def privateDemangle : Option (Name × Cnid) :=
  let window := min mfilename.length (mangleLength + maxExtLength)
  demangleFrom vol env mfilename did osx (mfilename.length - window) window

/-- The name on disk, or the name itself. -/
def demangle : Name :=
  match privateDemangle vol env mfilename did false with
  | some (uName, _) => uName
  | none => mfilename

/-- The same with the forms of Mac OS X, and the CNID of what was found. -/
def demangleOsx : Name × Option Cnid :=
  match privateDemangle vol env mfilename did true with
  | some (uName, id) => (uName, some id)
  | none => (mfilename, none)

end

end Netatalk.Mangle
