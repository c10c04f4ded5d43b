import Netatalk.Ledger

/-! # The resource fork cache

The part of `etc/afpd/ad_cache.c` that keeps the resource forks of files in their dircache entries,
and the functions of `directory.c` and `filedir.c` that change what an entry knows about its
resource fork.

A buffer has no size of its own: its size is `dcache_rlen` at the time it was filled, and
`rfork_cache_free` takes `dcache_rlen` off the counter when the buffer goes.  The model keeps the
real size beside it.  An entry is a pointer, a number here; entries that do not exist yet are there
from the start, without a buffer.

The file system, the CNID database and the indexes of the dircache answer as they like.  What the
indexes do to other entries, when an entry is added, moved or removed, is a list of `Retired`.
Sizes are natural numbers: budget and entry size are capped at 10 GB and 10 MB. -/

namespace Netatalk.RforkCache

open Function

/-! ### Entries -/

/-- The dates of an AppleDouble, in its own format. -/
structure Dates where
  create : ℕ
  modify : ℕ
  backup : ℕ
  access : ℕ

/-- The AppleDouble entries that are cached. -/
structure Metadata where
  finderinfo : List UInt8
  filedatesi : Dates
  afpfilei : List UInt8

def Metadata.zero : Metadata := ⟨List.replicate 32 0, ⟨0, 0, 0, 0⟩, List.replicate 4 0⟩

/-- `struct dir`. -/
structure Dir where
  did : ℕ
  isFile : Bool
  ino : ℕ
  ctime : ℤ
  mtime : ℤ
  rlen : ℤ
  ad : Metadata
  /-- the size of the buffer -/
  buf : Option ℕ
  /-- `rfork_lru_node` is set -/
  lruNode : Bool

/-- `struct stat`. -/
structure Stat where
  ino : ℕ
  ctime : ℤ
  mtime : ℤ
  isDir : Bool

/-- `struct adouble` with its metadata loaded; an AppleDouble version may lack an entry. -/
structure Adouble where
  finderi : Option (List UInt8)
  filedatesi : Option Dates
  afpfilei : Option (List UInt8)
  rlen : ℤ

def adRlenUnknown : ℤ := -1
def adRlenNoAd : ℤ := -2
def adRlenRforkOnly : ℤ := -3

def adRlenMetaAbsent (rlen : ℤ) : Bool := rlen = adRlenNoAd ∨ rlen = adRlenRforkOnly

def cnidInvalid : ℕ := 0
def dirdidRootParent : ℕ := 1
def dirdidRoot : ℕ := 2
def cnidStart : ℕ := 17

def adDateDelta : ℤ := 946684800

def adDateFromUnix (t : ℤ) : ℕ := ((t - adDateDelta) % 4294967296).toNat

def adDateToUnix (date : ℕ) : ℤ := ((date : ℤ) + adDateDelta) % 4294967296

/-- The dates with the later of the modification date and the file's. -/
def servedDates (mtime : ℤ) (dates : Dates) : Dates :=
  if adDateToUnix dates.modify < mtime then { dates with modify := adDateFromUnix mtime } else dates

def adStoreToCache (adp : Adouble) (d : Dir) : Dir :=
  { d with
    rlen := adp.rlen
    ad :=
      { finderinfo := adp.finderi.getD d.ad.finderinfo
        filedatesi := servedDates d.mtime (adp.filedatesi.getD d.ad.filedatesi)
        afpfilei := adp.afpfilei.getD d.ad.afpfilei } }

def adRebuildFromCache (d : Dir) : Adouble :=
  ⟨some d.ad.finderinfo, some d.ad.filedatesi, some d.ad.afpfilei, d.rlen⟩

def dirStatDiffers (d : Dir) (st : Stat) : Bool := d.ino ≠ st.ino ∨ d.ctime ≠ st.ctime

/-! ### Buffers -/

/-- `rfork_cache_budget` and `rfork_max_entry_size`. -/
structure Limits where
  budget : ℕ
  maxEntrySize : ℕ

/-- The entries, the LRU list with the oldest first, and `rfork_cache_used`. -/
structure State where
  dirs : ℕ → Dir
  lru : List ℕ
  used : ℕ

/-- Change an entry. -/
def State.on (s : State) (p : ℕ) (g : Dir → Dir) : State :=
  { s with dirs := update s.dirs p (g (s.dirs p)) }

/-- `rfork_cache_free`; with a negative length the counter stays. -/
def rforkCacheFree (p : ℕ) (s : State) : State :=
  let d := s.dirs p
  match d.buf with
  | none => s
  | some _ =>
    { dirs := update s.dirs p { d with buf := none, lruNode := false }
      lru := if d.lruNode then s.lru.erase p else s.lru
      used :=
        if d.rlen < 0 then s.used
        else if (s.used : ℤ) < d.rlen then 0
        else s.used - d.rlen.toNat }

/-- The loop of `rfork_cache_evict_to_budget`; each round unlinks the head of the list. -/
def evictLoop (budget needed : ℕ) : ℕ → State → State
  | 0, s => s
  | n + 1, s =>
    match s.lru with
    | [] => s
    | p :: _ =>
      if budget < s.used + needed then evictLoop budget needed n (rforkCacheFree p s) else s

def rforkCacheEvictToBudget (budget needed : ℕ) (s : State) : State :=
  evictLoop budget needed s.lru.length s

/-- What `rfork_cache_store_from_fd` is told. -/
structure StoreEnv where
  rsrcOpen : Bool
  /-- the data fork is open, and no other session has the resource fork open for writing -/
  unshared : Bool
  /-- `malloc` and `fstat` succeed -/
  stamped : Bool
  bytesRead : ℤ
  /-- `enqueue` succeeds -/
  enqueued : Bool

/-- `rfork_cache_store_from_fd`. -/
def rforkCacheStoreFromFd (limits : Limits) (p : ℕ) (env : StoreEnv) (s : State) : Bool × State :=
  if !(s.dirs p).isFile then (false, s)
  else
    let s := rforkCacheFree p s
    let rlen := (s.dirs p).rlen
    if !env.rsrcOpen then (false, s)
    else if rlen ≤ 0 then (false, s)
    else if (limits.maxEntrySize : ℤ) < rlen then (false, s)
    else if !env.unshared then (false, s)
    else if limits.budget < s.used ∧ limits.budget < s.used - limits.budget then (false, s)
    else
      let size := rlen.toNat
      let s :=
        if limits.budget < s.used + size then rforkCacheEvictToBudget limits.budget size s else s
      if limits.budget < s.used + size then (false, s)
      else if !env.stamped then (false, s)
      else if env.bytesRead ≠ rlen then
        (false, s.on p fun d => { d with rlen := adRlenUnknown, ad := .zero })
      else if !env.enqueued then (false, s.on p fun d => { d with buf := none, lruNode := false })
      else
        (true,
          { dirs := update s.dirs p { s.dirs p with buf := some size, lruNode := true }
            lru := s.lru ++ [p]
            used := s.used + size })

/-! ### Other entries -/

/-- What the dircache does to an entry: it leaves the indexes, to be freed later, or it is freed
together with its buffer. -/
inductive Retired where
  | forget (p : ℕ)
  | free (p : ℕ)

def retire (s : State) : Retired → State
  | .forget p => s.on p fun d => { d with did := cnidInvalid }
  | .free p => rforkCacheFree p s

def retireAll (l : List Retired) (s : State) : State := l.foldl retire s

/-- `dir_remove_tree`; `l` is the rest of the work, on the children and for `curdir`. -/
def dirRemoveTree (p : ℕ) (l : List Retired) (s : State) : State :=
  let did := (s.dirs p).did
  if did = dirdidRoot ∨ did = dirdidRootParent ∨ did = cnidInvalid then s
  else retireAll l (retire s (.forget p))

/-! ### `dir_modify` -/

/-- The flags and fields of `struct dir_modify_args` that matter here. -/
structure ModifyArgs where
  path : Bool
  stat : Bool
  ad : Bool
  adInv : Bool
  st : Option Stat
  adp : Option Adouble

/-- How `DCMOD_PATH` goes. -/
inductive PathStep where
  | joinFailed
  | sameKey
  | reindexed (l : List Retired)
  | reindexFailed (l : List Retired)

/-- What `dir_modify` is told. -/
structure ModifyEnv where
  /-- the entry is in a queue -/
  queued : Bool
  add : List Retired
  path : PathStep
  /-- `dir_stat_usable` -/
  statUsable : Bool
  /-- the entry is `curdir` -/
  held : Bool
  cnidLookup : Option ℕ
  /-- the lookup found no row -/
  notFound : Bool
  objectCnid : Option ℕ
  rekey : List Retired
  remove : List Retired
  children : List Retired
  promote : List Retired

def inoChanged (d : Dir) (st : Stat) : Bool := d.ino ≠ 0 ∧ d.ino ≠ st.ino

def ctimeChanged (d : Dir) (st : Stat) : Bool := d.ctime ≠ 0 ∧ d.ctime ≠ st.ctime

/-- `DCMOD_PATH`; false if the call fails. -/
def modifyPath (p : ℕ) (env : ModifyEnv) (s : State) : Bool × State :=
  match env.path with
  | .joinFailed => (false, s)
  | .sameKey => (true, s)
  | .reindexed l => (true, retireAll l s)
  | .reindexFailed l => (false, dirRemoveTree p env.remove (retireAll l s))

/-- What the database makes of a replaced object. -/
inductive Object where
  | gone (s : State)
  | kept (s : State)
  | taken (s : State)
  | replaced (s : State)

/-- The CNID of the object at the path, and the entry's place under it. -/
def modifyCnid (p : ℕ) (env : ModifyEnv) (s : State) : Object :=
  if (s.dirs p).did = dirdidRoot then .taken s
  else
    let object := if env.held && env.notFound then env.objectCnid else none
    match env.cnidLookup.or object with
    | none => if !env.held then .gone (dirRemoveTree p env.remove s) else .kept s
    | some id =>
      if id ≠ (s.dirs p).did then
        .replaced (retireAll env.rekey (s.on p fun d => { d with did := id }))
      else .replaced s

/-- The stat fields. -/
def takeStat (st : Stat) (d : Dir) : Dir :=
  { d with ctime := st.ctime, ino := st.ino, mtime := st.mtime }

/-- `DCMOD_STAT`; true if the entry is gone. -/
def modifyStat (p : ℕ) (st : Stat) (env : ModifyEnv) (s : State) : Bool × State :=
  let d := s.dirs p
  let s :=
    if inoChanged d st || ctimeChanged d st then
      (rforkCacheFree p s).on p fun d => { d with rlen := adRlenUnknown }
    else s
  if d.isFile = st.isDir then (true, dirRemoveTree p env.remove s)
  else
    match if inoChanged d st then modifyCnid p env s else .taken s with
    | .gone s => (true, s)
    -- the old inode brings the next refresh back here
    | .kept s => (false, s.on p fun d => { takeStat st d with ino := d.ino })
    | .taken s => (false, s.on p (takeStat st))
    | .replaced s => (false, retireAll env.children (s.on p (takeStat st)))

/-- The stat that is taken, if any. -/
def ModifyArgs.takes (args : ModifyArgs) (env : ModifyEnv) (d : Dir) : Option Stat :=
  match args.st with
  | none => none
  | some st => if args.stat && (!inoChanged d st || env.statUsable) then some st else none

/-- `DCMOD_AD`, unless the metadata came with a stat that was not taken. -/
def modifyAd (p : ℕ) (args : ModifyArgs) (taken : Bool) (s : State) : State :=
  match args.adp with
  | none => s
  | some adp =>
    if args.ad && (taken || !args.stat || args.st.isNone) then
      (rforkCacheFree p s).on p (adStoreToCache adp)
    else s

/-- The served modification date after a stat. -/
def modifyMdate (p : ℕ) (args : ModifyArgs) (taken : Option Stat) (s : State) : State :=
  match taken with
  | none => s
  | some st =>
    if !args.ad && 0 ≤ (s.dirs p).rlen then
      s.on p fun d =>
        { d with ad := { d.ad with filedatesi := servedDates st.mtime d.ad.filedatesi } }
    else s

/-- `DCMOD_AD_INV`. -/
def modifyAdInv (p : ℕ) (args : ModifyArgs) (s : State) : State :=
  if args.adInv then
    (rforkCacheFree p s).on p fun d => { d with rlen := adRlenUnknown, ad := .zero }
  else s

/-- `dir_modify`; false if it fails. -/
def dirModify (p : ℕ) (args : ModifyArgs) (env : ModifyEnv) (s : State) : Bool × State :=
  if (s.dirs p).did = cnidInvalid then (true, s)
  else
    let s := if !env.queued && cnidStart ≤ (s.dirs p).did then retireAll env.add s else s
    let r := if args.path then modifyPath p env s else (true, s)
    if !r.1 then (false, r.2)
    else
      let taken := args.takes env (r.2.dirs p)
      let r := match taken with
        | none => (false, r.2)
        | some st => modifyStat p st env r.2
      if r.1 then (true, r.2)
      else
        let s := modifyAd p args taken.isSome r.2
        let s := modifyMdate p args taken s
        let s := modifyAdInv p args s
        (true, retireAll env.promote s)

/-! ### Metadata -/

/-- `dir_takes_stat`. -/
def dirTakesStat (p : ℕ) (st : Stat) (env : ModifyEnv) (s : State) : Bool × State :=
  let did := (s.dirs p).did
  if did = cnidInvalid then (false, s)
  else
    let s :=
      if dirStatDiffers (s.dirs p) st then
        (dirModify p ⟨false, true, false, false, some st, none⟩ env s).2
      else s
    ((s.dirs p).did = did ∧ (s.dirs p).ino = st.ino, s)

/-- What `ad_metadata` answers. -/
inductive AdMetadata where
  | ok (adp : Adouble)
  | enoent
  | failed

/-- What `ad_metadata_cached` is told. -/
structure MetadataEnv where
  ostat : Option Stat
  refresh : ModifyEnv
  adMetadata : AdMetadata
  resoSize : ℤ
  /-- `errno` after `ad_reso_size` confirms that there is no resource fork -/
  resoAbsent : Bool

/-- Whether the cache answers, or the metadata is read from disk for an entry. -/
inductive Lookup where
  | served (adp : Adouble)
  | absent
  | disk (dir : Option ℕ) (s : State)

/-- The answer of an entry whose stat has not changed. -/
def metadataServe (p : ℕ) (s : State) : Lookup :=
  let rlen := (s.dirs p).rlen
  if 0 ≤ rlen then .served (adRebuildFromCache (s.dirs p))
  else if adRlenMetaAbsent rlen then .absent
  else .disk (some p) s

/-- `ad_metadata_cached` up to `disk_read`. -/
def metadataLookup (dir : Option ℕ) (strict : Bool) (recent : Option Stat) (env : MetadataEnv)
    (s : State) : Lookup :=
  match dir with
  | none => .disk none s
  | some p =>
    if strict && recent.isNone && env.ostat.isNone then .disk (some p) s
    else
      match recent.or (if strict then env.ostat else none) with
      | none => metadataServe p s
      | some st =>
        if dirStatDiffers (s.dirs p) st then
          let r := dirTakesStat p st env.refresh s
          .disk (if r.1 then some p else none) r.2
        else metadataServe p s

/-- The length an entry without metadata gets. -/
def absentRlen (isDir : Bool) (env : MetadataEnv) (rlen : ℤ) : ℤ :=
  if isDir then adRlenNoAd
  else if 0 < env.resoSize then adRlenRforkOnly
  else if env.resoSize = 0 ∧ env.resoAbsent then adRlenNoAd
  else rlen

/-- `ad_metadata_cached` from `disk_read` on. -/
def metadataRead (isDir : Bool) (env : MetadataEnv) (dir : Option ℕ) (s : State) :
    AdMetadata × State :=
  match dir with
  | none => (env.adMetadata, s)
  | some p =>
    match env.adMetadata with
    | .ok adp => (.ok adp, s.on p (adStoreToCache adp))
    | .enoent =>
      (.enoent,
        (rforkCacheFree p s).on p fun d => { d with rlen := absentRlen isDir env d.rlen })
    | .failed => (.failed, s)

/-- `ad_metadata_cached`; `isDir` is the flag `ADFLAGS_DIR`. -/
def adMetadataCached (isDir : Bool) (dir : Option ℕ) (strict : Bool) (recent : Option Stat)
    (env : MetadataEnv) (s : State) : AdMetadata × State :=
  match metadataLookup dir strict recent env s with
  | .served adp => (.ok adp, s)
  | .absent => (.enoent, s)
  | .disk dir s => metadataRead isDir env dir s

/-- What `moveandrename` does with the entry it has found, after the rename: the entry moves, and
takes the metadata that is opened to write the CNID to it. -/
def moveandrename (p : ℕ) (st : Stat) (env : ModifyEnv) (adOpen : Option Adouble) (s : State) :
    State :=
  let r := dirModify p ⟨true, true, false, false, some st, none⟩ env s
  match adOpen with
  | none => r.2
  | some adp => if r.1 then r.2.on p (adStoreToCache adp) else r.2

/-! ### Sequences of operations -/

inductive Op where
  | store (p : ℕ) (env : StoreEnv)
  | free (p : ℕ)
  | evict (needed : ℕ)
  | metadata (isDir : Bool) (dir : Option ℕ) (strict : Bool) (recent : Option Stat)
      (env : MetadataEnv)
  | modify (p : ℕ) (args : ModifyArgs) (env : ModifyEnv)
  | rename (p : ℕ) (st : Stat) (env : ModifyEnv) (adOpen : Option Adouble)
  | retire (r : Retired)

def exec (limits : Limits) (s : State) : Op → State
  | .store p env => (rforkCacheStoreFromFd limits p env s).2
  | .free p => rforkCacheFree p s
  | .evict needed => rforkCacheEvictToBudget limits.budget needed s
  | .metadata isDir dir strict recent env => (adMetadataCached isDir dir strict recent env s).2
  | .modify p args env => (dirModify p args env s).2
  | .rename p st env adOpen => moveandrename p st env adOpen s
  | .retire r => retire s r

/-- Before the first store no entry has a buffer. -/
structure Initial (s : State) : Prop where
  buf : ∀ p, (s.dirs p).buf = none ∧ (s.dirs p).lruNode = false
  lru : s.lru = []
  used : s.used = 0

/-- The states that operations with a property lead to. -/
inductive Reach (limits : Limits) (P : State → Op → Prop) : State → Prop
  | init {s : State} : Initial s → Reach limits P s
  | step {s : State} (op : Op) : Reach limits P s → P s op → Reach limits P (exec limits s op)

end Netatalk.RforkCache
