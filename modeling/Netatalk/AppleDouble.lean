import Netatalk.Bytes

/-! # AppleDouble headers

The model of reading and rebuilding the header of an AppleDouble (`libatalk/adouble/ad_open.c` and
`ad_flush.c`), in the version 2 layout of a metadata file and in the layout of the metadata EA.  A
header is the magic, the version, a filler, the number of entries, and a descriptor of twelve bytes
for each entry: its id, offset and length, most significant byte first.

* **The table.**  `ad_eid` maps the twenty entry numbers to offsets and lengths.  `ad_init` fills
  it with a layout, and reading overlays the descriptors of the header.
* **The buffer.**  `ad_data` has `AD_DATASZ_MAX` bytes.  No header that is read or written reaches
  its end: at most 20 descriptors follow the first 26 bytes.
* **The build.**  `haveEafd` is whether `HAVE_EAFD` is defined.
* **The file.**  Reads, writes and `fstat` succeed. -/

namespace Netatalk.AppleDouble

open Bytes Function

/-! ### Layouts -/

/-- An index of `ad_eid`: below `ADEID_MAX`. -/
abbrev Eid := Fin 20

def Eid.dfork : Eid := 1
def Eid.rfork : Eid := 2
def Eid.name : Eid := 3
def Eid.comment : Eid := 4
def Eid.iconbw : Eid := 5
def Eid.iconcol : Eid := 6
def Eid.filei : Eid := 7
def Eid.filedatesi : Eid := 8
def Eid.finderi : Eid := 9
def Eid.macfilei : Eid := 10
def Eid.prodosfilei : Eid := 11
def Eid.msdosfilei : Eid := 12
def Eid.shortname : Eid := 13
def Eid.afpfilei : Eid := 14
def Eid.did : Eid := 15
def Eid.privdev : Eid := 16
def Eid.privino : Eid := 17
def Eid.privsyn : Eid := 18
def Eid.privid : Eid := 19

/-- `AD_MAGIC`. -/
def adMagic : ℕ := 0x00051607

/-- `AD_VERSION2`, the version in a header of either layout. -/
def adVersion2 : ℕ := 0x00020000

def adedoffVersion : ℕ := 4
def adedoffNentries : ℕ := 24

/-- `AD_HEADER_LEN`. -/
def adHeaderLen : ℕ := 26

/-- `AD_ENTRY_LEN`. -/
def adEntryLen : ℕ := 12

/-- `AD_DATASZ2`. -/
def adDatasz2 : ℕ := 741

/-- `AD_DATASZ_EA`. -/
def adDataszEa : ℕ := 402

/-- `AD_DATASZ_MAX`. -/
def adDataszMax : ℕ := 1024

/-- `ADEID_NUM_EA`. -/
def adeidNumEa : ℕ := 8

/-- `ADEDOFF_RFORK_OSX`. -/
def adedoffRforkOsx : ℕ := 82

/-- `struct ad_entry`. -/
structure AdEntry where
  off : ℕ
  len : ℕ
deriving DecidableEq, Repr

/-- `ad_eid`. -/
abbrev Table := Eid → AdEntry

/-- `entry_order2`. -/
def entryOrder2 : List (Eid × AdEntry) :=
  [(.name, ⟨182, 0⟩), (.comment, ⟨437, 200⟩), (.filedatesi, ⟨637, 16⟩), (.finderi, ⟨653, 32⟩),
    (.did, ⟨685, 4⟩), (.afpfilei, ⟨689, 4⟩), (.shortname, ⟨693, 0⟩), (.prodosfilei, ⟨705, 8⟩),
    (.privdev, ⟨713, 8⟩), (.privino, ⟨721, 8⟩), (.privsyn, ⟨729, 8⟩), (.privid, ⟨737, 4⟩),
    (.rfork, ⟨741, 0⟩)]

/-- `entry_order_ea`. -/
def entryOrderEa : List (Eid × AdEntry) :=
  [(.finderi, ⟨122, 32⟩), (.comment, ⟨154, 200⟩), (.filedatesi, ⟨354, 16⟩), (.afpfilei, ⟨370, 4⟩),
    (.privdev, ⟨374, 8⟩), (.privino, ⟨382, 8⟩), (.privsyn, ⟨390, 8⟩), (.privid, ⟨398, 4⟩)]

/-- `ad_vers`. -/
inductive Vers where
  | v2
  | ea
deriving DecidableEq, Repr

/-- The fields of `struct adouble` that a header is read into and rebuilt from. -/
structure Adouble where
  vers : Vers
  magic : ℕ
  version : ℕ
  eid : Table
  validDataLen : ℕ
  data : List UInt8
  rlen : ℕ

/-- `ad_setentryoff`. -/
def Table.setOff (t : Table) (e : Eid) (off : ℕ) : Table :=
  update t e { t e with off := off }

/-- The loop of `ad_init_offsets` over a layout. -/
def fillTable (order : List (Eid × AdEntry)) : Table :=
  order.foldl (fun t x => update t x.1 x.2) fun _ => ⟨0, 0⟩

section
variable (haveEafd : Bool)

/-- The table that `ad_init_offsets` fills. -/
def initTable : Vers → Table
  | .v2 => fillTable entryOrder2
  | .ea =>
    let t := fillTable entryOrderEa
    if haveEafd then t else t.setOff .rfork adedoffRforkOsx

/-- `ad_init`. -/
def adInit (vers : Vers) : Adouble where
  vers := vers
  magic := adMagic
  -- the version bits of either `ad_vers`
  version := adVersion2
  eid := initTable haveEafd vers
  validDataLen := match vers with
    | .v2 => adDatasz2
    | .ea => adDataszEa
  data := List.replicate adDataszMax 0
  rlen := 0

/-! ### Entries -/

/-- A row of the table of `ad_entry_check_size`. -/
structure Check where
  expectedLen : ℤ
  fixedSize : Bool
  minimumSize : Bool

def adChecks (e : Eid) : Check :=
  if e = .dfork ∨ e = .rfork then ⟨-1, false, false⟩
  else if e = .name then ⟨255, false, false⟩
  else if e = .comment then ⟨200, false, false⟩
  else if e = .iconbw then ⟨128, true, false⟩
  else if e = .iconcol then ⟨1024, false, false⟩
  else if e = .filei ∨ e = .filedatesi then ⟨16, true, false⟩
  else if e = .finderi then ⟨32, false, true⟩
  else if e = .macfilei ∨ e = .afpfilei ∨ e = .did ∨ e = .privid then ⟨4, true, false⟩
  else if e = .prodosfilei ∨ e = .privdev ∨ e = .privino ∨ e = .privsyn then ⟨8, true, false⟩
  else if e = .msdosfilei then ⟨2, true, false⟩
  else if e = .shortname then ⟨12, false, false⟩
  else ⟨0, false, false⟩

/-- `ad_entry_check_size`. -/
def adEntryCheckSize (e : Eid) (bufsize off gotLen : ℕ) : Bool :=
  let c := adChecks e
  -- the sum of the offset and the room the entry needs, in 32 bits
  let fits (requiredLen : ℕ) : Bool :=
    off ≤ (off + requiredLen) % 2 ^ 32 && (off + requiredLen) % 2 ^ 32 ≤ bufsize
  if gotLen = 0 then true
  else if c.expectedLen = 0 then false
  else if c.expectedLen = -1 then true
  else if c.fixedSize then
    if c.expectedLen ≠ gotLen then false else fits gotLen
  else if c.minimumSize then
    if gotLen < c.expectedLen then false else fits gotLen
  else if gotLen > c.expectedLen then false
  else fits c.expectedLen.toNat

/-- `ad_getentryoff`. -/
def adGetentryoff (ad : Adouble) (e : Eid) : ℕ :=
  match ad.vers with
  | .v2 => (ad.eid e).off
  | .ea => if e = .dfork ∨ e = .rfork ∧ haveEafd then 0 else (ad.eid e).off

/-- `ad_entry_fits`. -/
def adEntryFits (ad : Adouble) (e : Eid) (len : ℕ) : Bool :=
  adGetentryoff haveEafd ad e ≠ 0 &&
    adEntryCheckSize e ad.validDataLen (adGetentryoff haveEafd ad e) len

/-- `ad_entry`: the offset of the entry in `ad_data`, or none for NULL. -/
def adEntry (ad : Adouble) (e : Eid) : Option ℕ :=
  if adEntryFits haveEafd ad e (ad.eid e).len then some (adGetentryoff haveEafd ad e) else none

/-! ### Reading -/

/-- An entry descriptor, with the id on disk. -/
structure Descriptor where
  id : ℕ
  entry : AdEntry
deriving DecidableEq, Repr

/-- `get_eid`; 0 is an unknown id. -/
def getEid (id : ℕ) : Eid :=
  if h : id ≤ 15 then ⟨id, by omega⟩
  else if id = 0x80444556 then .privdev
  else if id = 0x80494E4F then .privino
  else if id = 0x8053594E then .privsyn
  else if id = 0x8053567E then .privid
  else 0

/-- The number in `n` bytes of a buffer. -/
def word (n : ℕ) (buf : List UInt8) (off : ℕ) : ℕ := beNat ((buf.drop off).take n)

/-- The first descriptors in a buffer. -/
def descriptors : ℕ → List UInt8 → List Descriptor
  | 0, _ => []
  | n + 1, buf =>
    ⟨word 4 buf 0, ⟨word 4 buf 4, word 4 buf 8⟩⟩ :: descriptors n (buf.drop adEntryLen)

/-- A descriptor that `parse_entries` accepts: its id is known, and an entry other than the
resource fork lies inside the valid data. -/
def Descriptor.Ok (validDataLen : ℕ) (d : Descriptor) : Prop :=
  getEid d.id ≠ 0 ∧ (getEid d.id ≠ .rfork →
    d.entry.off ≤ validDataLen ∧ d.entry.len ≤ validDataLen - d.entry.off)

/-- The body of the loop of `parse_entries`. -/
def parseEntry (validDataLen : ℕ) (t : Table) (d : Descriptor) : Option Table :=
  let eid := getEid d.id
  -- `get_eid` gives no number above `ADEID_MAX`
  if eid = 0 ∨ eid ≠ .rfork ∧
      (validDataLen < d.entry.off ∨ validDataLen - d.entry.off < d.entry.len) then
    none
  else
    some (update t eid d.entry)

/-- `parse_entries`. -/
def parseEntries (ad : Adouble) (nentries validDataLen : ℕ) : Option Adouble := do
  let t ← (descriptors nentries (ad.data.drop adHeaderLen)).foldlM (parseEntry validDataLen) ad.eid
  return { ad with eid := t, validDataLen := validDataLen }

/-- `ad_header_read` of a file. -/
def adHeaderRead (ad : Adouble) (file : List UInt8) : Option Adouble :=
  let headerLen := min adDatasz2 file.length
  let data := splice ad.data 0 (file.take adDatasz2)
  let magic := word 4 data 0
  let version := word 4 data adedoffVersion
  let nentries := word 2 data adedoffNentries
  if headerLen < adHeaderLen then none
  else if magic ≠ adMagic ∨ version ≠ adVersion2 then none
  else if 16 < nentries then none
  else if headerLen < nentries * adEntryLen + adHeaderLen then none
  else
    match parseEntries { ad with data, magic, version } nentries headerLen with
    | none => none
    | some ad =>
      let off := adGetentryoff haveEafd ad .rfork
      if off = 0 ∨ adDataszMax < off then none
      else if headerLen < off then none
      else some { ad with rlen := file.length - off }

/-- The entries that the EA layout needs, in the order of their numbers. -/
def eaEids : List Eid :=
  [.comment, .filedatesi, .finderi, .afpfilei, .privdev, .privino, .privsyn, .privid]

/-- `ad_header_read_ea` of the value of the metadata EA; the call that gets the EA fails when it is
longer than `AD_DATASZ_EA`. -/
def adHeaderReadEa (ad : Adouble) (blob : List UInt8) : Option Adouble :=
  let data := splice ad.data 0 blob
  let magic := word 4 data 0
  let version := word 4 data adedoffVersion
  let nentries := word 2 data adedoffNentries
  if adDataszEa < blob.length ∨ blob.length < adDataszEa then none
  else if magic ≠ adMagic ∨ version ≠ adVersion2 then none
  else if nentries ≠ adeidNumEa then none
  else
    match parseEntries { ad with data, magic, version } nentries blob.length with
    | none => none
    | some ad =>
      if eaEids.any fun e => (adEntry haveEafd ad e).isNone then none
      else if ad.vers = .ea ∧ ¬ haveEafd then
        some { ad with eid := ad.eid.setOff .rfork adedoffRforkOsx }
      else some ad

end

/-! ### Rebuilding -/

/-- `EID_DISK`. -/
def eidDisk (e : Eid) : ℕ :=
  if e = .privdev then 0x80444556
  else if e = .privino then 0x80494E4F
  else if e = .privsyn then 0x8053594E
  else if e = .privid then 0x8053567E
  else e.val

/-- The bytes of a descriptor. -/
def Descriptor.bytes (d : Descriptor) : List UInt8 :=
  beBytes 4 d.id ++ (beBytes 4 d.entry.off ++ beBytes 4 d.entry.len)

/-- The loop of the rebuild functions: the number of descriptors and the buffer with them, from a
position on. -/
def rebuildEntries (skip : Eid → Bool) (t : Table) :
    List Eid → ℕ → ℕ → List UInt8 → ℕ × List UInt8
  | [], nent, _, data => (nent, data)
  | e :: es, nent, pos, data =>
    if skip e then rebuildEntries skip t es nent pos data
    else
      rebuildEntries skip t es (nent + 1) (pos + adEntryLen)
        (splice data pos (Descriptor.bytes ⟨eidDisk e, t e⟩))

/-- The common part of the rebuild functions; `skip` are the entries left out besides those
without offset. -/
def rebuildHeader (skip : Eid → Bool) (ad : Adouble) : Adouble :=
  let data := splice ad.data 0 (beBytes 4 ad.magic)
  let data := splice data adedoffVersion (beBytes 4 ad.version)
  let (nent, data) := rebuildEntries (fun e => (ad.eid e).off = 0 || skip e) ad.eid
    (List.finRange 20) 0 adHeaderLen data
  { ad with data := splice data adedoffNentries (beBytes 2 nent) }

/-- `ad_rebuild_adouble_header_v2`: the length of the header and the adouble with its bytes. -/
def adRebuildAdoubleHeaderV2 (haveEafd : Bool) (ad : Adouble) : ℕ × Adouble :=
  (adGetentryoff haveEafd ad .rfork, rebuildHeader (fun _ => false) ad)

/-- `ad_rebuild_adouble_header_ea`. -/
def adRebuildAdoubleHeaderEa (ad : Adouble) : ℕ × Adouble :=
  (adDataszEa, rebuildHeader (fun e => e = .rfork) ad)

end Netatalk.AppleDouble
