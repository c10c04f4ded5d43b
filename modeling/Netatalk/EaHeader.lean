import Netatalk.Bytes

/-! # Extended attributes in an AppleDouble header file

The model of the EA header of `libatalk/vfs/ea_ad.c`: a file that lists the names and sizes of the
extended attributes of an object.  A handle holds the bytes of the file and the array of entries
unpacked from them.  Adding appends an entry to the array; deleting only frees the name and leaves
a hole, which packing skips.

* **The array.**  `ea_count` is the length of `entries`; an entry without a name is a hole.
* **The buffer.**  `data` is `ea_data`, and `ea_size` is its length.  The bytes that `realloc`
  adds are unknown: `junk` gives them.  A write outside the buffer ends in `none`.
* **The file.**  `none` is a missing file.  Reads, writes and locks succeed, and so do
  allocations but for `eaAddentryAlloc`. -/

namespace Netatalk.EaHeader

open Bytes

abbrev Name := List UInt8

/-- `EA_MAGIC`. -/
def eaMagic : ℕ := 0x61644541

/-- `EA_VERSION`. -/
def eaVersion : ℕ := 1

/-- `EA_COUNT_OFF`. -/
def eaCountOff : ℕ := 6

/-- `EA_HEADER_SIZE`. -/
def eaHeaderSize : ℕ := 8

/-- `struct ea_entry`. -/
structure Entry where
  name : Option Name
  namelen : ℕ
  size : ℕ
deriving DecidableEq, Repr

/-- `struct ea`. -/
structure Ea where
  entries : List Entry
  data : List UInt8
deriving DecidableEq, Repr

/-! ### Unpacking -/

/-- The loop of `unpack_header` over the entries, from the rest of the buffer. -/
def unpackEntries : ℕ → List UInt8 → Option (List Entry)
  | 0, _ => some []
  | count + 1, buf =>
    -- a size of four bytes and at least the NUL of the name
    if buf.length < 5 then none
    else
      let size := beNat (buf.take 4)
      let buf := buf.drop 4
      let name := buf.takeWhile (· ≠ 0)
      (unpackEntries count (buf.drop (name.length + 1))).map (⟨some name, name.length, size⟩ :: ·)

/-- `unpack_header`: none for a header it refuses. -/
def unpackHeader (data : List UInt8) : Option (List Entry) := do
  let magic ← read data 0 4
  if beNat magic ≠ eaMagic then none
  let version ← read data 4 2
  if beNat version ≠ eaVersion then none
  let count ← read data eaCountOff 2
  unpackEntries (beNat count) (data.drop eaHeaderSize)

/-- The reads of the loop of `unpack_header` from an offset on: where each begins and how many bytes
it has. -/
def entryReads (data : List UInt8) : ℕ → ℕ → List (ℕ × ℕ)
  | 0, _ => []
  | count + 1, off =>
    if data.length < off + 5 then []
    else
      let namelen := ((data.drop (off + 4)).takeWhile (· ≠ 0)).length
      -- `strndup` stops at the NUL or at the end of the buffer
      (off, 4) :: (off + 4, min (namelen + 1) (data.length - (off + 4))) ::
        entryReads data count (off + 5 + namelen)

/-- The reads of `unpack_header`; `after` lies in memory behind the buffer. -/
def headerReads (data after : List UInt8) : List (ℕ × ℕ) :=
  let mem := data ++ after
  (0, 4) :: if beNat (mem.take 4) ≠ eaMagic then []
  else (4, 2) :: if beNat ((mem.drop 4).take 2) ≠ eaVersion then []
  else (eaCountOff, 2) ::
    entryReads data (beNat ((mem.drop eaCountOff).take 2)) eaHeaderSize

/-! ### Packing -/

/-- The bytes an entry needs; a hole needs none. -/
def Entry.packSize (e : Entry) : ℕ := if e.name.isSome then 4 + (e.namelen + 1) else 0

/-- The loop of `pack_header` that copies the entries, from an offset on. -/
def packEntries : List Entry → ℕ → List UInt8 → Option (List UInt8)
  | [], _, data => some data
  | e :: es, off, data =>
    match e.name with
    | none => packEntries es off data
    | some name => do
        let data ← write data off (beBytes 4 e.size)
        let data ← write data (off + 4) (name ++ [0])
        packEntries es (off + 4 + e.namelen + 1) data

variable (junk : ℕ → UInt8)

/-- The buffer of the new size: the old bytes as far as they go. -/
def resize (data : List UInt8) (size : ℕ) : List UInt8 :=
  data.take size ++ (List.range (size - data.length)).map junk

/-- `pack_header`. -/
def packHeader (ea : Ea) : Option Ea :=
  -- magic, version and count are still valid in the buffer
  if ea.entries = [] then some ea
  else do
    let eacount := ea.entries.countP fun e => e.name.isSome
    let bufsize := eaHeaderSize + (ea.entries.map Entry.packSize).sum
    let data := resize junk ea.data bufsize
    let data ← write data eaCountOff (beBytes 2 eacount)
    let data ← packEntries ea.entries eaHeaderSize data
    return ⟨ea.entries.take eacount, data⟩

/-! ### Entries -/

/-- The search for a name and the change of the entry that has it; none when there is none. -/
def updateEntry (name : Name) (f : Entry → Entry) : List Entry → Option (List Entry)
  | [] => none
  | e :: es =>
    if e.name = some name then some (f e :: es)
    else (updateEntry name f es).map (e :: ·)

/-- `ea_addentry`; `creat` and `trunc` are the bits `O_CREAT` and `O_TRUNC` of the bitmap. -/
def eaAddentry (ea : Ea) (name : Name) (size : ℕ) (creat trunc : Bool) : ℤ × Ea :=
  match updateEntry name (fun e => { e with size := size }) ea.entries with
  | some entries => if creat then (-2, ea) else (0, { ea with entries := entries })
  | none =>
    if trunc then (-3, ea)
    else
      let entries := ea.entries ++ [⟨some name, name.length, size⟩]
      (entries.length, { ea with entries := entries })

/-- `ea_addentry` when memory may run out: whether the array is `grown` and the name is `copied`. -/
def eaAddentryAlloc (grown copied : Bool) (ea : Ea) (name : Name) (size : ℕ) (creat trunc : Bool) :
    ℤ × Ea :=
  match updateEntry name (fun e => { e with size := size }) ea.entries with
  | some entries => if creat then (-2, ea) else (0, { ea with entries := entries })
  | none =>
    if trunc then (-3, ea)
    else if !grown then (-1, ea)
    -- the error path sets `ea_count` to 0
    else if !copied then (-1, { ea with entries := [] })
    else
      let entries := ea.entries ++ [⟨some name, name.length, size⟩]
      (entries.length, { ea with entries := entries })

/-- `ea_delentry`. -/
def eaDelentry (ea : Ea) (name : Name) : ℤ × Ea :=
  if ea.entries = [] then (-1, ea)
  else
    match updateEntry name (fun e => { e with name := none }) ea.entries with
    | some entries => (0, { ea with entries := entries })
    | none => (0, ea)

/-! ### Files -/

/-- Failures of `ea_open`: -1 and -2. -/
inductive OpenErr where
  | misc
  | noent
deriving DecidableEq, Repr

/-- The header of a new file. -/
def newHeader : List UInt8 := beBytes 4 eaMagic ++ beBytes 2 eaVersion ++ [0, 0]

/-- `ea_open`, with whether `EA_CREATE` is given. -/
def eaOpen (create : Bool) (file : Option (List UInt8)) : Except OpenErr Ea :=
  match file with
  | none => if create then .ok ⟨[], newHeader⟩ else .error .noent
  | some data =>
    if data = [] then .ok ⟨[], newHeader⟩
    else
      match unpackHeader data with
      | some entries => .ok ⟨entries, data⟩
      | none => .error .misc

/-- `ea_close` of a handle opened with `EA_RDWR`: a header without entries removes its file. -/
def eaClose (ea : Ea) : Option (Option (List UInt8)) := do
  let ea ← packHeader junk ea
  return if ea.entries = [] then none else some ea.data

/-- A change of an open header. -/
inductive Op where
  | add (name : Name) (size : ℕ) (creat trunc : Bool)
  | del (name : Name)
deriving DecidableEq, Repr

def Op.apply : Op → Ea → Ea
  | .add name size creat trunc, ea => (eaAddentry ea name size creat trunc).2
  | .del name, ea => (eaDelentry ea name).2

/-- Open, modify and close. -/
structure Session where
  create : Bool
  ops : List Op
deriving DecidableEq, Repr

/-- The file after a session; a caller whose open fails changes nothing. -/
def Session.run (s : Session) (file : Option (List UInt8)) : Option (Option (List UInt8)) :=
  match eaOpen s.create file with
  | .ok ea => eaClose junk (s.ops.foldl (fun ea op => op.apply ea) ea)
  | .error _ => some file

/-- The file after a number of sessions. -/
def run : List Session → Option (List UInt8) → Option (Option (List UInt8))
  | [], file => some file
  | s :: ss, file => do
      let file ← s.run junk file
      run ss file

end Netatalk.EaHeader
