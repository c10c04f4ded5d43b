import Netatalk.ArcCache

/-! # The directory cache in both modes, and `dir_modify`

The cache of `etc/afpd/dircache.c` as its callers see it: `dircache_add`, the hits of the two
searches, `dircache_promote`, `dircache_remove` with all index flags, `dir_remove`, and the part of
`dir_modify` that moves an entry in the indexes.

* **Modes.**  The two tables, the entries, `curdir` and the counters by volume serve both modes.
  ARC keeps the entries in the four queues of `Netatalk.ArcCache`; the LRU mode keeps them in
  `index_queue`, and no search reorders it.
* **Sizes.**  `dircache_maxsize` is the `c` of `arc_init`.  The tables are created for `2 * c` nodes
  in ARC and for `c` nodes in the LRU mode.
* **`dir_modify`.**  It re-adds an entry that has no queue node, gives an entry a new name key, and
  lets an entry go or gives it another DID when a stat shows another object.  What the stat and
  the database say is an argument.  Where the entry's children are scanned at once, the call is
  one with `DCMOD_NO_PROMOTE`, the operations of the scan, and the promotion.
* **Aborts.**  An operation is none when an assertion fires, `AFP_PANIC` is met or an insertion
  into a table cannot allocate, all of which end the process. -/

namespace Netatalk.DirIndex

open Dircache

/-- `CNID_START`. -/
def cnidStart : ℕ := 17

/-- `DIRDID_ROOT_PARENT`. -/
def dirdidRootParent : ℕ := 1

/-- `DIRDID_ROOT`. -/
def dirdidRoot : ℕ := 2

/-- `DIRCACHE_FREE_QUANTUM`. -/
def dircacheFreeQuantum : ℕ := 256

/-- The cache: its mode, the queue of the LRU mode and what `Arc` holds. -/
structure Cache where
  /-- `arc_cache.enabled` -/
  enabled : Bool
  indexQueue : List Ptr
  queueCount : ℕ
  arc : Arc

/-- The record of memory that no `dir_new` has filled. -/
def blank : Dir := ⟨0, cnidInvalid, 0, [], false, false, none⟩

/-- `dircache_init`. -/
def dircacheInit (enabled : Bool) (maxsize : ℕ) : Cache :=
  ⟨enabled, [], 0, arcInit maxsize fun _ => blank⟩

/-- The number of nodes a table is created for. -/
def Cache.hashSize (s : Cache) : ℕ := if s.enabled then 2 * s.arc.c else s.arc.c

/-- Change the record of an entry. -/
def Cache.setDir (x : Ptr) (d : Dir) (s : Cache) : Cache :=
  { s with arc := { s.arc with dir := Function.update s.arc.dir x d } }

def Cache.setCurdir (x : Option Ptr) (s : Cache) : Cache :=
  { s with arc := { s.arc with curdir := x } }

/-- The entry has a queue node. -/
def Cache.queued (s : Cache) (x : Ptr) : Bool :=
  if s.enabled then s.arc.queued x else x ∈ s.indexQueue

/-! ### Removal -/

/-- `dircache_remove` with `QUEUE_INDEX | DIRCACHE | DIDNAME_INDEX`. -/
def dircacheRemove (x : Ptr) (s : Cache) : Cache :=
  if s.enabled then { s with arc := Dircache.dircacheRemove x s.arc }
  else
    { s with
      indexQueue := s.indexQueue.erase x
      queueCount := if x ∈ s.indexQueue then s.queueCount - 1 else s.queueCount
      arc := unindex x s.arc }

/-- `dircache_expunge_duplicate` of the entry a lookup found; the flag is `took_curdir`. -/
def dircacheExpungeDuplicate (dup : Option Ptr) (s : Bool × Cache) : Bool × Cache :=
  match dup with
  | none => s
  | some dup =>
    let took := s.2.arc.curdir = some dup && !(s.2.arc.dir dup).isFile
    let s' := dircacheRemove dup (if took then s.2.setCurdir none else s.2)
    (s.1 || took, { s' with arc := dircacheDeferFree dup s'.arc })

/-- `dir_remove`, up to the search for another current directory. -/
def dirRemove (x : Ptr) (s : Cache) : Cache :=
  if (s.arc.dir x).did = dirdidRootParent ∨ (s.arc.dir x).did = dirdidRoot ∨
      (s.arc.dir x).did = cnidInvalid then s
  else
    let s' := dircacheRemove x s
    let s' := if s'.arc.curdir = some x && !(s'.arc.dir x).isFile then s'.setCurdir none else s'
    { s' with arc := dircacheDeferFree x s'.arc }

/-! ### Insertion -/

/-- The loop of `dircache_evict`, with the rounds that are left. -/
def evictLoop : ℕ → Cache → Option Cache
  | 0, s => some s
  | n + 1, s =>
    match s.indexQueue with
    | [] => none
    | x :: q =>
      if s.arc.curdir = some x then
        evictLoop n { s with indexQueue := q ++ [x], queueCount := s.queueCount - 1 + 1 }
      else
        evictLoop n { s with
          indexQueue := q
          queueCount := s.queueCount - 1
          arc := dircacheDeferFree x (unindex x s.arc) }

/-- `dircache_evict`. -/
def dircacheEvict (s : Cache) : Option Cache :=
  (evictLoop dircacheFreeQuantum s).filter fun s => s.queueCount = s.arc.dircache.length

/-- The start of `dircache_add` of the entry `d` at `x`: what holds its keys goes. -/
def addExpunge (x : Ptr) (d : Dir) (s : Cache) : Bool × Cache :=
  let s := (false, s.setDir x d)
  let s := dircacheExpungeDuplicate (s.2.arc.lookupDid d) s
  dircacheExpungeDuplicate (s.2.arc.lookupDidname d) s

/-- The LRU mode makes room in a full cache. -/
def makeRoom (s : Cache) : Option Cache :=
  if s.arc.dircache.length ≥ s.arc.c then dircacheEvict s else some s

/-- The insertions of the LRU mode into the tables and the queue, and the end of `dircache_add`. -/
def enqueue (x : Ptr) (took : Bool) (s : Cache) : Option Cache :=
  if s.arc.dircache.length < s.arc.c ∧ s.arc.indexDidname.length < s.arc.c then
    let s' : Cache := { s with
      indexQueue := s.indexQueue ++ [x]
      queueCount := s.queueCount + 1
      arc := { s.arc with
        dircache := x :: s.arc.dircache
        indexDidname := x :: s.arc.indexDidname
        vidEntryCount := Function.update s.arc.vidEntryCount (s.arc.dir x).vid
          (s.arc.vidEntryCount (s.arc.dir x).vid + 1)
        curdir := if took then (if (s.arc.dir x).isFile then none else some x)
          else s.arc.curdir } }
    if s'.queueCount = s'.arc.indexDidname.length ∧ s'.queueCount = s'.arc.dircache.length then
      some s' else none
  else none

/-- `dircache_add` of the entry `d` at `x`. -/
def dircacheAdd (x : Ptr) (d : Dir) (s : Cache) : Option Cache :=
  if 2 ≤ d.pdid ∧ cnidStart ≤ d.did ∧ d.vid ≠ 0 then
    if s.enabled then (Dircache.dircacheAdd x d s.arc).map fun a => { s with arc := a }
    else if s.arc.dircache.length ≤ s.arc.c then
      (makeRoom (addExpunge x d s).2).bind (enqueue x (addExpunge x d s).1)
    else none
  else none

/-! ### Hits -/

/-- What the two searches do with the entry they found. -/
def searchHit (x : Ptr) (s : Cache) : Cache :=
  if s.enabled then { s with arc := Dircache.searchHit x s.arc } else s

/-- `dircache_promote`. -/
def dircachePromote (x : Ptr) (s : Cache) : Cache :=
  if s.enabled then { s with arc := Dircache.dircachePromote x s.arc }
  else if x ∈ s.indexQueue then { s with indexQueue := s.indexQueue.erase x ++ [x] }
  else s

/-! ### `dir_modify` -/

/-- The arguments of `dir_modify` and the answers it gets, as far as they move the entry. -/
structure ModifyArgs where
  /-- `DCMOD_PATH` -/
  path : Bool
  /-- zero leaves the parent as it is -/
  newPdid : ℕ
  newUname : Option (List UInt8)
  /-- the join of the new path fails -/
  joinFails : Bool
  /-- `hash_alloc_insert_node` finds no memory -/
  insertFails : Bool
  /-- `DCMOD_STAT` with a stat -/
  stat : Bool
  /-- the stat shows another inode than the entry's -/
  inoChanged : Bool
  /-- `dir_stat_usable` -/
  usable : Bool
  /-- the object is a directory and the entry a file, or the other way round -/
  otherKind : Bool
  /-- none for `CNID_INVALID` -/
  cnidLookup : Option ℕ
  /-- the lookup failed with `CNID_ERR_NOTFOUND` -/
  notFound : Bool
  objectCnid : Option ℕ
  /-- `DCMOD_NO_PROMOTE` -/
  noPromote : Bool

/-- An entry without a queue node is not in the cache, and reserved ids never are. -/
def Cache.heals (s : Cache) (x : Ptr) : Bool :=
  !s.queued x && decide (cnidStart ≤ (s.arc.dir x).did)

/-- The start of `dir_modify`. -/
def modifyHeal (x : Ptr) (s : Cache) : Option Cache :=
  if s.heals x then dircacheAdd x (s.arc.dir x) s else some s

/-- `needs_reindex`. -/
def needsReindex (a : ModifyArgs) (d : Dir) : Bool :=
  (a.newPdid ≠ 0 && a.newPdid ≠ d.pdid) ||
    match a.newUname with
    | none => false
    | some n => n ≠ d.uName

/-- The record with the new parent and the new name. -/
def renamed (a : ModifyArgs) (d : Dir) : Dir :=
  { d with
    pdid := if a.newPdid ≠ 0 then a.newPdid else d.pdid
    uName := a.newUname.getD d.uName }

/-- `dircache_remove` with `DIDNAME_INDEX`. -/
def dropDidname (x : Ptr) (s : Cache) : Cache :=
  { s with arc := { s.arc with indexDidname := s.arc.indexDidname.erase x } }

/-- `dircache_reindex_didname`; false for its failure. -/
def dircacheReindexDidname (x : Ptr) (insertFails : Bool) (s : Cache) : Option (Bool × Cache) :=
  let s' := dircacheExpungeDuplicate (s.arc.lookupDidname (s.arc.dir x)) (false, s)
  let s' := if s'.1 then s'.2.setCurdir (if (s.arc.dir x).isFile then none else some x) else s'.2
  if insertFails then some (false, s')
  else if s'.arc.indexDidname.length < s'.hashSize then
    some (true, { s' with arc := { s'.arc with indexDidname := x :: s'.arc.indexDidname } })
  else none

/-- `DCMOD_PATH`; false when `dir_modify` returns. -/
def modifyPath (x : Ptr) (a : ModifyArgs) (s : Cache) : Option (Bool × Cache) :=
  if a.path then
    if a.joinFails then some (false, s)
    else if needsReindex a (s.arc.dir x) then
      match dircacheReindexDidname x a.insertFails
          ((dropDidname x s).setDir x (renamed a (s.arc.dir x))) with
      | none => none
      | some (true, s') => some (true, s')
      | some (false, s') => some (false, dirRemove x s')
    else some (true, s.setDir x (renamed a (s.arc.dir x)))
  else some (true, s)

/-- The database's CNID for the object of the stat. -/
def newCnid (x : Ptr) (a : ModifyArgs) (s : Cache) : Option ℕ :=
  if a.cnidLookup = none ∧ s.arc.curdir = some x ∧ a.notFound = true then a.objectCnid
  else a.cnidLookup

/-- What a stat means for the entry. -/
inductive StatOutcome where
  | keep
  | gone
  | rekey (cnid : ℕ)

/-- The decisions of `DCMOD_STAT`. -/
def statOutcome (x : Ptr) (a : ModifyArgs) (s : Cache) : StatOutcome :=
  if a.stat = false ∨ (a.inoChanged = true ∧ a.usable = false) then .keep
  else if a.otherKind then .gone
  else if a.inoChanged = false ∨ (s.arc.dir x).did = dirdidRoot then .keep
  else
    match newCnid x a s with
    | none => if s.arc.curdir = some x then .keep else .gone
    | some cnid => if cnid = (s.arc.dir x).did then .keep else .rekey cnid

/-- `DCMOD_STAT`; false when `dir_modify` returns. -/
def modifyStat (x : Ptr) (a : ModifyArgs) (s : Cache) : Option (Bool × Cache) :=
  match statOutcome x a s with
  | .keep => some (true, s)
  | .gone => some (false, dirRemove x s)
  | .rekey cnid =>
    let s' := dircacheRemove x s
    (dircacheAdd x { s'.arc.dir x with did := cnid } s').map fun s' => (true, s')

/-- Go on with a part of `dir_modify` unless the part before returned. -/
def andThen (r : Option (Bool × Cache)) (f : Cache → Option (Bool × Cache)) :
    Option (Bool × Cache) :=
  r.bind fun r => if r.1 then f r.2 else some r

/-- `dir_modify`. -/
def dirModify (x : Ptr) (a : ModifyArgs) (s : Cache) : Option Cache :=
  if (s.arc.dir x).did = cnidInvalid then some s
  else
    (andThen (andThen ((modifyHeal x s).map fun s => (true, s)) (modifyPath x a))
      (modifyStat x a)).map fun r => if r.1 && !a.noPromote then dircachePromote x r.2 else r.2

/-! ### Runs -/

/-- An operation on the cache. -/
inductive Op where
  | dirNew (x : Ptr) (d : Dir)
  | add (x : Ptr)
  | search (x : Ptr)
  | promote (x : Ptr)
  | remove (x : Ptr)
  | dirRemove (x : Ptr)
  | modify (x : Ptr) (a : ModifyArgs)
  | chdir (x : Option Ptr)

/-- The calls the code makes: memory in the cache is not allocated again, only an entry outside the
cache is added and only a cached one is found or promoted, and the volume root is not renamed. -/
def Op.Legal (s : Cache) : Op → Prop
  | .dirNew x _ => x ∉ s.arc.dircache
  | .add x => x ∉ s.arc.dircache
  | .search x => x ∈ s.arc.dircache
  | .promote x => x ∈ s.arc.dircache
  | .modify x a => a.path = true → x ∈ s.arc.dircache ∨ (s.arc.dir x).did = cnidInvalid ∨
      cnidStart ≤ (s.arc.dir x).did
  | _ => True

/-- One operation; none when it does not return. -/
def exec (s : Cache) : Op → Option Cache
  | .dirNew x d => some (s.setDir x { d with arcGhost := false, arcList := none })
  | .add x => dircacheAdd x (s.arc.dir x) s
  | .search x => some (searchHit x s)
  | .promote x => some (dircachePromote x s)
  | .remove x => some (dircacheRemove x s)
  | .dirRemove x => some (DirIndex.dirRemove x s)
  | .modify x a => dirModify x a s
  | .chdir x => some (s.setCurdir x)

/-- The states that operations admitted by `ok` lead to from an empty cache. -/
inductive Reachable (enabled : Bool) (maxsize : ℕ) (ok : Cache → Op → Prop) : Cache → Prop
  | init : Reachable enabled maxsize ok (dircacheInit enabled maxsize)
  | step {s s' : Cache} (op : Op) : Reachable enabled maxsize ok s → op.Legal s → ok s op →
      exec s op = some s' → Reachable enabled maxsize ok s'

/-- The operation gives `dircache_add` an entry whose `DIRF_ARC_GHOST` is set: it adds such an
entry, or `dir_modify` re-adds it or moves it to another DID. -/
def Op.AddsGhost (s : Cache) : Op → Prop
  | .add x => (s.arc.dir x).arcGhost = true
  | .modify x a => (s.arc.dir x).did ≠ cnidInvalid ∧
      ((s.heals x = true ∧ (s.arc.dir x).arcGhost = true) ∨
        ∃ s₁ s₂ cnid, modifyHeal x s = some s₁ ∧ modifyPath x a s₁ = some (true, s₂) ∧
          statOutcome x a s₂ = .rekey cnid ∧ (s₂.arc.dir x).arcGhost = true)
  | _ => False

/-! ### The agreement of the indexes -/

/-- The queue an entry with this `arc_list` belongs to: `index_queue` for `ARC_NONE`. -/
def Cache.queueOf (s : Cache) : Option ArcList → List Ptr
  | none => s.indexQueue
  | some l => s.arc.queue l

/-- The counter of a queue. -/
def Cache.countOf (s : Cache) : Option ArcList → ℕ
  | none => s.queueCount
  | some l => s.arc.size l

/-- The tables, the queues, the ghost flags and the counters agree. -/
structure IndexConsistent (s : Cache) : Prop where
  nodupDircache : s.arc.dircache.Nodup
  nodupDidname : s.arc.indexDidname.Nodup
  same : ∀ x, x ∈ s.arc.dircache ↔ x ∈ s.arc.indexDidname
  uniqueDid : ∀ x ∈ s.arc.dircache, ∀ y ∈ s.arc.dircache, (s.arc.dir x).vid = (s.arc.dir y).vid →
    (s.arc.dir x).did = (s.arc.dir y).did → x = y
  uniqueName : ∀ x ∈ s.arc.indexDidname, ∀ y ∈ s.arc.indexDidname,
    (s.arc.dir x).vid = (s.arc.dir y).vid → (s.arc.dir x).pdid = (s.arc.dir y).pdid →
    (s.arc.dir x).uName = (s.arc.dir y).uName → x = y
  nodupQueue : ∀ l, (s.queueOf l).Nodup
  queued : ∀ l x, x ∈ s.queueOf l ↔ x ∈ s.arc.dircache ∧ (s.arc.dir x).arcList = l
  ghost : ∀ x ∈ s.arc.dircache,
    (s.arc.dir x).arcGhost = true ↔ x ∈ s.arc.queue .b1 ∨ x ∈ s.arc.queue .b2
  count : ∀ l, s.countOf l = (s.queueOf l).length
  vidEntryCount : ∀ v, s.arc.vidEntryCount v =
    s.arc.dircache.countP fun x => (s.arc.dir x).vid = v

end Netatalk.DirIndex
