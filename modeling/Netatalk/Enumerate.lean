import Mathlib
import Netatalk.Slots
import Netatalk.Records

/-! # FPEnumerate

The model of `etc/afpd/enumerate.c`: the saved listings, their slots, and the body `enumerate_in` of
the three requests that list a directory in batches.

A listing is a buffer of records, each a length byte, a name, a zero byte and the name's kind, with
a position `sd_last` in it.  `sd_sindex` is the index of the name at that position, counting the
names a request lists.  Eight directories keep their listings in slots; the volume root is read
again at each request into a listing of its own.

What a request finds in the file system is in `Folder`: the stat of the directory, the names
`readdir` gives and their stats, and the parameters of the entries.  The buffer holds what has been
written to it up to the end of the records, not what an earlier, longer listing left behind.
`for_each_dirent` counts names in an `int`, so that a listing never has more names than fit the
counters, which are natural numbers here. -/

namespace Netatalk.Enumerate

/-! ### What a request finds -/

inductive Kind where
  | file
  | dir
deriving DecidableEq

structure Timespec where
  sec : ℤ
  nsec : ℤ
deriving DecidableEq

/-- The parts of the directory's stat that are used. -/
structure Stat where
  ino : ℕ
  ctime : Timespec
deriving DecidableEq

/-- A name that `check_dirent` lets pass, with the kind `readdir` tells, if it does. -/
structure Dirent where
  name : List UInt8
  dtype : Option Kind
  pos : 0 < name.length
  le : name.length ≤ 255

/-- `errno` of a failed stat or read of the directory. -/
inductive Errno where
  | eacces
  | enotdir
  /-- `EMFILE`, `ENFILE` or `ENOMEM` -/
  | shortage
  | other
deriving DecidableEq

inductive AfpErr where
  | access
  | badtype
  | bitmap
  | misc
  | nodir
  | noobj
  | param
deriving DecidableEq

/-- A directory as a request finds it. -/
structure Folder where
  vid : ℕ
  did : ℕ
  did_pos : 0 < did
  /-- `dirlookup` of the request's directory fails -/
  dirlookup : Option AfpErr
  /-- `cname` of the request's path fails -/
  cname : Option AfpErr
  stat : Except Errno Stat
  /-- what `dir_stat_refresh` returns -/
  refresh : Option AfpErr
  /-- the visible names, in the order of `readdir` -/
  dirents : Except Errno (List Dirent)
  /-- the volume provides the virtual icon in this directory -/
  icon : Option Dirent
  /-- the kind of a name by its dircache entry or its stat, none if that fails -/
  statName : List UInt8 → Option Kind
  /-- the length of the parameters for a bitmap, or why there are none -/
  getdirparams : ℕ → List UInt8 → Except AfpErr ℕ
  getfilparams : ℕ → List UInt8 → Except AfpErr ℕ
  iconparams : ℕ → Except AfpErr ℕ

/-- The `n`-th directory of a volume, with these names, of which `a` is a file. -/
def folderWith (dirents : List Dirent) (n : ℕ) : Folder where
  vid := 1
  did := 17 + n
  did_pos := Nat.add_pos_left (by decide) n
  dirlookup := none
  cname := none
  stat := .ok ⟨5, ⟨1000, 0⟩⟩
  refresh := none
  dirents := .ok dirents
  icon := none
  statName := fun name => some (if name = [97] then .file else .dir)
  getdirparams := fun _ _ => .ok 40
  getfilparams := fun _ _ => .ok 40
  iconparams := fun _ => .ok 40

/-- Which of the three requests. -/
inductive Ext where
  | enumerate
  | enumerateExt
  | enumerateExt2
deriving DecidableEq

/-- The width of the index in the request. -/
def Ext.indexBits : Ext → ℕ
  | .enumerateExt2 => 32
  | _ => 16

theorem Ext.one_lt (e : Ext) : 1 < 2 ^ e.indexBits := by
  cases e <;> decide

/-- A request, the capacity of the reply buffer, and the clock as the request reads it. -/
structure Request where
  ext : Ext
  fbitmap : ℕ
  dbitmap : ℕ
  reqcnt : ℕ
  sindex : ℕ
  sindex_lt : sindex < 2 ^ ext.indexBits
  maxsz : ℕ
  rbuflen : ℕ
  clock : Option Timespec

/-! ### Listings -/

def sdUnknown : UInt8 := 0
def sdFile : UInt8 := 1
def sdDir : UInt8 := 2
def sdSkip : UInt8 := 3
def sdIcon : UInt8 := 4

def sdbufbrk : ℕ := 2048

def dirdidRoot : ℕ := 2

/-- `struct savedir`; `last` is an offset in the buffer. -/
structure Savedir where
  vid : ℕ
  did : ℕ
  buflen : ℕ
  buf : Option (List UInt8)
  last : ℕ
  sindex : ℕ
  kinds : ℕ
  ino : ℕ
  ctime : Timespec
  left : Bool

namespace Savedir

/-- The bytes of the buffer. -/
def bytes (sd : Savedir) : List UInt8 := sd.buf.getD []

def byte (sd : Savedir) (i : ℕ) : UInt8 := sd.bytes.getD i 0

def setByte (sd : Savedir) (i : ℕ) (b : UInt8) : Savedir :=
  { sd with buf := sd.buf.map fun buf => buf.set i b }

/-- Move to an offset. -/
def seek (sd : Savedir) (i : ℕ) : Savedir := { sd with last := i }

/-- Count one more name. -/
def count (sd : Savedir) : Savedir := { sd with sindex := sd.sindex + 1 }

@[simp] theorem bytes_count (sd : Savedir) : sd.count.bytes = sd.bytes := rfl

@[simp] theorem last_count (sd : Savedir) : sd.count.last = sd.last := rfl

@[simp] theorem bytes_seek (sd : Savedir) (i : ℕ) : (sd.seek i).bytes = sd.bytes := rfl

@[simp] theorem last_seek (sd : Savedir) (i : ℕ) : (sd.seek i).last = i := rfl

@[simp] theorem bytes_setByte (sd : Savedir) (i : ℕ) (b : UInt8) :
    (sd.setByte i b).bytes = sd.bytes.set i b := by
  unfold bytes setByte
  cases sd.buf <;> rfl

end Savedir

def sdDrop (sd : Savedir) : Savedir := { sd with buf := none, buflen := 0, did := 0 }

/-- The directory a listing is of. -/
def Savedir.key (sd : Savedir) : Option (ℕ × ℕ) :=
  if sd.did = 0 then none else some (sd.vid, sd.did)

/-- A slot holds the listing of a directory, by its volume and its id. -/
def slotKind : SlotKind (ℕ × ℕ) Savedir where
  key := Savedir.key
  clear := sdDrop
  key_clear := fun _ => rfl

/-- `sd_select`. -/
def sdSelect (vid did : ℕ) (s : Slots Savedir) : Slots Savedir := s.select slotKind (vid, did)

def readFailed : Errno → AfpErr
  | .eacces => .access
  | .enotdir => .badtype
  | .shortage => .misc
  | .other => .nodir

/-- `sd_kind`. -/
def sdKind (de : Dirent) : UInt8 :=
  match de.dtype with
  | some .dir => sdDir
  | some .file => sdFile
  | none => sdUnknown

/-- `sd_append`; a buffer that cannot grow fails the read. -/
def sdAppend (sd : Savedir) (name : List UInt8) (kind : UInt8) : Savedir :=
  let used := sd.last
  { sd with
    buflen := if sd.buflen < used + name.length + 4 then sd.buflen * 2 else sd.buflen
    buf := some (sd.bytes.take used ++ (Rec.mk name kind).bytes)
    last := used + name.length + 3 }

/-- `sd_leave`. -/
def sdLeave (sd : Savedir) (name len : ℕ) : Savedir :=
  { sd.setByte (name + len + 1) sdSkip with left := true }

/-- `sd_stat` of the name at an offset: its kind, unless it is left out. -/
def sdStat (f : Folder) (sd : Savedir) (name len : ℕ) : Option Kind × Savedir :=
  let kind := name + len + 1
  if sd.byte kind = sdSkip then (none, sd)
  else if sd.byte kind = sdIcon then (some .file, sd)
  else
    match f.statName ((sd.bytes.drop name).take len) with
    | none => (none, sdLeave sd name len)
    | some .dir => (some .dir, sd.setByte kind sdDir)
    | some .file => (some .file, sd.setByte kind sdFile)

/-- `enumerate_ctime_recent`. -/
def enumerateCtimeRecent (ctime now : Timespec) : Bool :=
  if ctime.sec < now.sec - 1 ∨ now.sec + 2 < ctime.sec then false
  else
    let ahead := (ctime.sec - now.sec) * 1000000000 + ctime.nsec - now.nsec
    if 0 ≤ ahead then ahead ≤ 2000000000 else ctime.nsec = 0 ∨ -20000000 < ahead

/-- The slot holds the folder's listing, and the folder's stat still shows its stamp. -/
def stamped (f : Folder) (st : Stat) (sd : Savedir) : Bool :=
  sd.buf.isSome ∧ sd.did = f.did ∧ sd.ino = st.ino ∧ (sd.ctime.sec ≠ 0 ∨ sd.ctime.nsec ≠ 0) ∧
    st.ctime = sd.ctime

/-- The listing `sd_fetch` makes of the names it has read. -/
def sdRead (f : Folder) (st : Stat) (clock : Option Timespec) (dirents : List Dirent)
    (sd : Savedir) : Savedir :=
  let sd := match sd.buf with
    | none => { sd with buf := some [], buflen := sdbufbrk }
    | some _ => sd
  -- a clock that cannot be read makes the read recent
  let now := clock.getD st.ctime
  let sd := dirents.foldl (fun sd de => sdAppend sd de.name (sdKind de)) (sd.seek 0)
  let sd := match f.icon with
    | none => sd
    | some de => sdAppend sd de.name sdIcon
  { sd with
    buf := some (sd.bytes.take sd.last ++ [0])
    last := 0
    left := false
    sindex := 1
    ino := st.ino
    ctime := if enumerateCtimeRecent st.ctime now then ⟨0, 0⟩ else st.ctime
    vid := f.vid
    did := f.did }

/-- `sd_fetch`: whether the listing has just been read, and the listing. -/
def sdFetch (f : Folder) (st : Stat) (req : Request) (sd : Savedir) :
    Except Errno (Bool × Savedir) :=
  if stamped f st sd && (req.sindex ≠ 1 || !sd.left) then .ok (false, sd)
  else
    match f.dirents with
    | .error e => .error e
    | .ok dirents => .ok (true, sdRead f st req.clock dirents sd)

/-! ### Batches -/

/-- The bitmap that applies to a kind byte. -/
def bitmapOf (req : Request) (kind : UInt8) : ℕ :=
  if kind = sdDir then req.dbitmap else req.fbitmap

theorem lt_of_byte {sd : Savedir} {i : ℕ} (h : (sd.byte i).toNat ≠ 0) : i < sd.bytes.length := by
  rcases lt_or_ge i sd.bytes.length with hlt | hge
  · exact hlt
  · exfalso
    apply h
    rw [Savedir.byte, List.getD_eq_default _ _ hge]
    rfl

theorem length_sdStat (f : Folder) (sd : Savedir) (name len : ℕ) :
    (sdStat f sd name len).2.bytes.length = sd.bytes.length := by
  have hset : ∀ b, (sd.setByte (name + len + 1) b).bytes.length = sd.bytes.length := fun b =>
    (congrArg List.length (Savedir.bytes_setByte sd _ b)).trans List.length_set
  fun_cases sdStat f sd name len with
  | case1 | case2 => rfl
  | case3 => exact hset sdSkip
  | case4 => exact hset sdDir
  | case5 => exact hset sdFile

/-- The stat the walk takes of a name: of one whose kind is not known, and of one of a listed kind
in a listing just read, which holds no mark of a name left out before.  Other names are not looked
at. -/
def walkStat (f : Folder) (fresh : Bool) (req : Request) (sd : Savedir) (name len : ℕ) :
    Option Kind × Savedir :=
  let kind := sd.byte (name + len + 1)
  if kind = sdUnknown ∨ fresh = true ∧ bitmapOf req kind ≠ 0 then sdStat f sd name len
  else (some .file, sd)

theorem length_walkStat (f : Folder) (fresh : Bool) (req : Request) (sd : Savedir)
    (name len : ℕ) : (walkStat f fresh req sd name len).2.bytes.length = sd.bytes.length := by
  fun_cases walkStat f fresh req sd name len with
  | case1 => exact length_sdStat f sd name len
  | case2 => rfl

/-- The walk to the index of the request; false at the end of the records. -/
def walk (f : Folder) (fresh : Bool) (req : Request) (sd : Savedir) : Bool × Savedir :=
  if sd.sindex < req.sindex then
    let len := (sd.byte sd.last).toNat
    if len = 0 then (false, sd)
    else
      let name := sd.last + 1
      let s := walkStat f fresh req sd name len
      let sd' := s.2.seek (name + len + 2)
      let kind := sd'.byte (name + len + 1)
      if s.1 = none then walk f fresh req sd'
      else if kind = sdSkip ∨ bitmapOf req kind = 0 then walk f fresh req sd'
      else walk f fresh req sd'.count
  else (true, sd)
termination_by sd.bytes.length - sd.last
decreasing_by
  all_goals
    have hlt := lt_of_byte ‹(sd.byte sd.last).toNat ≠ 0›
    have hlen := length_walkStat f fresh req sd (sd.last + 1) (sd.byte sd.last).toNat
    simp only [Savedir.bytes_count, Savedir.last_count, Savedir.bytes_seek, Savedir.last_seek]
    omega

/-- The reply lists a name with its kind. -/
abbrev Listed := List UInt8 × Kind

/-- The bitmap that applies to a kind. -/
def Request.bitmap (req : Request) : Kind → ℕ
  | .file => req.fbitmap
  | .dir => req.dbitmap

/-- The bytes of an entry before its parameters. -/
def Ext.header : Ext → ℕ
  | .enumerate => 2
  | _ => 4

/-- The longest entry the length of an entry can tell. -/
def Ext.maxEntry : Ext → ℕ
  | .enumerate => 255
  | _ => 65535

/-- The bytes of an entry with `esz` bytes of parameters, padded to an even length. -/
def entryLength (ext : Ext) (esz : ℕ) : ℕ :=
  if (esz + ext.header) % 2 = 1 then esz + ext.header + 1 else esz + ext.header

/-- The parameters of an entry. -/
def params (f : Folder) (req : Request) (name : List UInt8) (kind : Kind) (icon : Bool) :
    Except AfpErr ℕ :=
  match kind with
  | .dir => f.getdirparams req.dbitmap name
  | .file => if icon then f.iconparams req.fbitmap else f.getfilparams req.fbitmap name

/-- The loop that fills the reply, of which `acc` is there and takes `sz` bytes. -/
def batch (f : Folder) (req : Request) (limit : ℕ) (acc : List Listed) (sz : ℕ) (sd : Savedir) :
    Except AfpErr (List Listed) × Savedir :=
  let len := (sd.byte sd.last).toNat
  if len = 0 then (.ok acc, sd)
  else if acc.length = req.reqcnt then (.ok acc, sd)
  else
    let name := sd.last + 1
    let uname := (sd.bytes.drop name).take len
    let icon := sd.byte (name + len + 1) = sdIcon
    let s := sdStat f sd name len
    let sd' := s.2.seek (name + len + 2)
    match s.1 with
    | none => batch f req limit acc sz sd'
    | some kind =>
      if req.bitmap kind = 0 then batch f req limit acc sz sd'
      else
        match params f req uname kind icon with
        | .error e => (.error e, sd')
        | .ok esz =>
          let entry := entryLength req.ext esz
          if limit < sz + entry then
            -- back up to the record, unless not even one entry fits
            if acc = [] then (.error .param, sd') else (.ok acc, sd'.seek sd.last)
          else if req.ext.maxEntry < entry then (.error .param, sd')
          else batch f req limit (acc ++ [(uname, kind)]) (sz + entry) sd'
termination_by sd.bytes.length - sd.last
decreasing_by
  all_goals
    have hlt := lt_of_byte ‹(sd.byte sd.last).toNat ≠ 0›
    have hlen := length_sdStat f sd (sd.last + 1) (sd.byte sd.last).toNat
    simp only [Savedir.bytes_seek, Savedir.last_seek]
    omega

/-! ### The request -/

/-- The kinds a request lists: 1 files, 2 folders. -/
def Request.kinds (req : Request) : ℕ :=
  (if req.fbitmap ≠ 0 then 1 else 0) + if req.dbitmap ≠ 0 then 2 else 0

/-- The room for entries in the reply: the request's limit, or what the buffer leaves before one
entry of the largest size. -/
def Request.limit (req : Request) : ℕ := min req.maxsz (req.rbuflen - 402)

/-- Start over unless the listing's position counts the kinds of the request and is not past its
index. -/
def position (req : Request) (sd : Savedir) : Savedir :=
  if req.sindex < sd.sindex ∨ req.kinds ≠ sd.kinds then
    { sd with sindex := 1, last := 0, kinds := req.kinds }
  else sd

/-- The walk to the index and the batch from there on. -/
def list (f : Folder) (req : Request) (fresh : Bool) (sd : Savedir) :
    Except AfpErr (List Listed) × Savedir :=
  match walk f fresh req (position req sd) with
  | (false, sd) => (.error .noobj, sd)
  | (true, sd) =>
    match batch f req req.limit [] 6 sd with
    | (.error e, sd') => (.error e, sd'.seek sd.last)
    | (.ok [], sd') => (.error .noobj, sd')
    | (.ok es, sd') => (.ok es, { sd' with sindex := req.sindex + es.length })

/-- What `enumerate_in` does with the listing it has selected. -/
def serve (f : Folder) (req : Request) (sd : Savedir) : Except AfpErr (List Listed) × Savedir :=
  match f.stat with
  | .error e => (.error (readFailed e), sdDrop sd)
  | .ok st =>
    match f.refresh with
    | some .misc => (.error .misc, sdDrop sd)
    | some _ => (.error .nodir, sdDrop sd)
    | none =>
      match sdFetch f st req sd with
      | .error e => (.error (readFailed e), sdDrop sd)
      | .ok (fresh, sd) => list f req fresh sd

/-- The slots and the volume root's listing. -/
structure State where
  slots : Slots Savedir
  own : Savedir

/-- `enumerate_in`. -/
def enumerateIn (f : Folder) (req : Request) (s : State) :
    Except AfpErr (List Listed) × State :=
  match f.dirlookup with
  | some e => (.error e, s)
  | none =>
    if req.fbitmap = 0 ∧ req.dbitmap = 0 then (.error .bitmap, s)
    else if req.sindex = 0 then (.error .param, s)
    else
      match f.cname with
      | some e => (.error e, s)
      | none =>
        if f.did = dirdidRoot then
          let r := serve f req s.own
          (r.1, { s with own := r.2 })
        else
          let slots := sdSelect f.vid f.did s.slots
          let r := serve f req slots.inUse
          (r.1, { s with slots := { slots with inUse := r.2 } })

/-- `enumerate`, for each of the three requests. -/
def enumerate (f : Folder) (req : Request) (s : State) : Except AfpErr (List Listed) × State :=
  enumerateIn f req { s with own := { s.own with did := 0 } }

/-- A listing that has not been used. -/
def Savedir.unused : Savedir := ⟨0, 0, 0, none, 0, 0, 0, 0, ⟨0, 0⟩, false⟩

/-- The statics before the first request; `SD_SLOTS` is 8. -/
def State.init : State := ⟨⟨.unused, List.replicate 7 .unused⟩, .unused⟩

end Netatalk.Enumerate
