import Mathlib.Data.List.Basic

/-! # The directory cache in ARC mode

The model of the adaptive replacement cache in `etc/afpd/dircache.c`: four queues of entries, T1
and T2 for the entries that are cached and B1 and B2 for the ghosts evicted from them, the
counter the code keeps for each, the adaptation target `p`, and the two hash tables that index
every entry of the four queues.

* **Entries.**  `struct dir` records live at addresses, and the queues and tables hold addresses.
  An entry's `qidx_node` is its node in the queue that holds it; a retired entry keeps its
  `arc_list` but has no node.
* **Queues.**  A queue is a list with the least recently used entry first.  `queue_remove` and
  `queue_move_to_tail_of` unlink a node from whichever queue it is in.
* **Tables.**  A table is the list of the entries its nodes name, and `hash_nodecount` its length;
  both tables are created for `2 * c` nodes.
* **Counters.**  A counter is decremented only next to the removal of a node from its queue, so
  none passes below zero. -/

namespace Netatalk.Dircache

open Function

/-- The address of a `struct dir`. -/
abbrev Ptr := ℕ

/-- `arc_list_t`, without `ARC_NONE`. -/
inductive ArcList where
  | t1
  | t2
  | b1
  | b2
deriving DecidableEq, Repr

/-- `struct dir`, as far as the cache reads it. -/
structure Dir where
  vid : ℕ
  did : ℕ
  pdid : ℕ
  uName : List UInt8
  /-- `DIRF_ISFILE` -/
  isFile : Bool
  /-- `DIRF_ARC_GHOST` -/
  arcGhost : Bool
  /-- none for `ARC_NONE` -/
  arcList : Option ArcList
deriving DecidableEq, Repr

/-- `CNID_INVALID`. -/
def cnidInvalid : ℕ := 0

/-- `arc_cache`, the two tables, `curdir`, `arc_promoting_ghost` and `vid_entry_count`. -/
structure Arc where
  c : ℕ
  p : ℕ
  queue : ArcList → List Ptr
  size : ArcList → ℕ
  dir : Ptr → Dir
  dircache : List Ptr
  indexDidname : List Ptr
  /-- none while the current directory is no cached entry -/
  curdir : Option Ptr
  promotingGhost : Option Ptr
  vidEntryCount : ℕ → ℕ

/-- `arc_init`, on empty tables. -/
def arcInit (c : ℕ) (dir : Ptr → Dir) : Arc where
  c := c
  p := 0
  queue := fun _ => []
  size := fun _ => 0
  dir := dir
  dircache := []
  indexDidname := []
  curdir := none
  promotingGhost := none
  vidEntryCount := fun _ => 0

/-! ### Moving and dropping entries -/

/-- `queue_move_to_tail_of` with the update of the two counters and of the entry's list. -/
def migrate (x : Ptr) (src dst : ArcList) (s : Arc) : Arc :=
  { s with
    queue := fun l => if l = dst then (s.queue l).erase x ++ [x] else (s.queue l).erase x
    size := fun l => if l = src then s.size l - 1 else if l = dst then s.size l + 1 else s.size l
    dir := update s.dir x { s.dir x with arcList := some dst } }

/-- Set or clear `DIRF_ARC_GHOST`. -/
def setGhost (x : Ptr) (ghost : Bool) (s : Arc) : Arc :=
  { s with dir := update s.dir x { s.dir x with arcGhost := ghost } }

/-- `dircache_remove` with `DIRCACHE | DIDNAME_INDEX`. -/
def unindex (x : Ptr) (s : Arc) : Arc :=
  { s with
    dircache := s.dircache.erase x
    indexDidname := s.indexDidname.erase x
    vidEntryCount := if x ∈ s.dircache then
        update s.vidEntryCount (s.dir x).vid (s.vidEntryCount (s.dir x).vid - 1)
      else s.vidEntryCount }

/-- `dircache_defer_free`. -/
def dircacheDeferFree (x : Ptr) (s : Arc) : Arc :=
  { s with dir := update s.dir x { s.dir x with did := cnidInvalid } }

/-- `queue_remove` with the update of the list's counter. -/
def unqueue (l : ArcList) (x : Ptr) (s : Arc) : Arc :=
  { s with
    queue := fun l' => (s.queue l').erase x
    size := fun l' => if l' = l then s.size l' - 1 else s.size l' }

/-- Take an entry out of its queue and of both tables, and queue it for its free. -/
def retire (l : ArcList) (x : Ptr) (s : Arc) : Arc :=
  dircacheDeferFree x (unindex x (unqueue l x s))

/-! ### REPLACE -/

/-- `arc_ghost_trim_candidate`. -/
def arcGhostTrimCandidate (q : List Ptr) (skip : Option Ptr) : Option Ptr :=
  match q with
  | [] => none
  | x :: q => if some x = skip then q.head? else some x

/-- `arc_ensure_ghost_capacity`. -/
def arcEnsureGhostCapacity (target : ArcList) (s : Arc) : Arc :=
  if s.size .b1 + s.size .b2 < s.c then s
  else
    match arcGhostTrimCandidate (s.queue target) s.promotingGhost with
    | none => s
    | some ghost => retire target ghost s

/-- `arc_find_victim`. -/
def arcFindVictim (q : List Ptr) (size : ℕ) (curdir : Option Ptr) : Option Ptr :=
  match q with
  | [] => none
  | x :: q =>
    if size = 0 then none
    else if some x = curdir then
      match q with
      | [] => none
      | y :: _ => if size < 2 ∨ some y = curdir then none else some y
    else some x

/-- `arc_evict_to_ghost`. -/
def arcEvictToGhost (victim : Ptr) (src dst : ArcList) (s : Arc) : Arc :=
  setGhost victim true (migrate victim src dst (arcEnsureGhostCapacity dst s))

/-- The victim of a queue. -/
def Arc.victim (s : Arc) (l : ArcList) : Option Ptr := arcFindVictim (s.queue l) (s.size l) s.curdir

/-- The list `arc_replace` tries first is T1. -/
def Arc.tryT1First (s : Arc) (inB2 : Bool) : Bool :=
  s.size .t1 ≥ 1 && ((inB2 && s.size .t1 = s.p) || s.size .t1 > s.p)

/-- `arc_replace`; false when no entry could be evicted. -/
def arcReplace (inB2 : Bool) (s : Arc) : Bool × Arc :=
  if s.tryT1First inB2 then
    match s.victim .t1 with
    | some victim => (true, arcEvictToGhost victim .t1 .b1 s)
    | none =>
      -- T1 is blocked by the current directory
      match s.victim .t2 with
      | none => (false, s)
      | some victim => (true, arcEvictToGhost victim .t2 .b2 s)
  else
    match s.victim .t2 with
    | some victim => (true, arcEvictToGhost victim .t2 .b2 s)
    | none =>
      match s.victim .t1 with
      | none => (false, s)
      | some victim => (true, arcEvictToGhost victim .t1 .b1 s)

/-! ### Hits -/

/-- `arc_case_i`: a hit in T1 or T2. -/
def arcCaseI (x : Ptr) (s : Arc) : Arc :=
  if (s.dir x).arcList = some .t1 then migrate x .t1 .t2 s
  else
    { s with
      queue := fun l => if l = .t2 then (s.queue l).erase x ++ [x] else (s.queue l).erase x
      dir := update s.dir x { s.dir x with arcList := some .t2 } }

/-- The step by which a hit in a ghost list of length `own` moves `p`. -/
def delta (own other : ℕ) : ℕ :=
  if own > 0 ∧ other > 0 then (if other / own > 1 then other / own else 1) else 1

/-- The common part of the two ghost hits: REPLACE with the ghost held back from trimming, and the
promotion of the ghost to T2. -/
def promoteGhost (ghost : Ptr) (src : ArcList) (inB2 : Bool) (p : ℕ) (s : Arc) : Arc :=
  let s := { s with p := p, promotingGhost := some ghost }
  let s := (arcReplace inB2 s).2
  let s := { s with promotingGhost := none }
  setGhost ghost false (migrate ghost src .t2 s)

/-- `arc_case_ii_adapt_and_replace`: a ghost hit in B1. -/
def arcCaseIiAdaptAndReplace (ghost : Ptr) (s : Arc) : Arc :=
  let d := delta (s.size .b1) (s.size .b2)
  promoteGhost ghost .b1 false (if s.p + d > s.c then s.c else s.p + d) s

/-- `arc_case_iii_adapt_and_replace`: a ghost hit in B2. -/
def arcCaseIiiAdaptAndReplace (ghost : Ptr) (s : Arc) : Arc :=
  let d := delta (s.size .b2) (s.size .b1)
  promoteGhost ghost .b2 true (if s.p > d then s.p - d else 0) s

/-- What the two searches do with the entry they found. -/
def searchHit (x : Ptr) (s : Arc) : Arc :=
  if (s.dir x).arcGhost then
    match (s.dir x).arcList with
    | some .b1 => arcCaseIiAdaptAndReplace x s
    | some .b2 => arcCaseIiiAdaptAndReplace x s
    | _ => s
  else arcCaseI x s

/-- `dircache_promote`. -/
def dircachePromote (x : Ptr) (s : Arc) : Arc :=
  match (s.dir x).arcList with
  | some .t1 => arcCaseI x s
  | some .t2 => arcCaseI x s
  | some .b1 => arcCaseIiAdaptAndReplace x s
  | some .b2 => arcCaseIiiAdaptAndReplace x s
  | none => s

/-! ### Insertion and removal -/

/-- `dequeue` of a ghost list, and the release of the ghost it returns. -/
def dropLru (l : ArcList) (s : Arc) : Arc :=
  match s.queue l with
  | [] => s
  | ghost :: _ => retire l ghost s

/-- `arc_case_iv_make_room`. -/
def arcCaseIvMakeRoom (s : Arc) : Arc :=
  let l1 := s.size .t1 + s.size .b1
  let l2 := s.size .t2 + s.size .b2
  if l1 = s.c then
    if s.size .t1 < s.c then (arcReplace false (dropLru .b1 s)).2
    else
      match s.victim .t1 with
      | some victim => retire .t1 victim s
      | none =>
        match s.victim .t2 with
        | some victim => retire .t2 victim s
        | none => s
  else if l1 < s.c ∧ l1 + l2 ≥ s.c then
    (arcReplace false (if l1 + l2 = 2 * s.c then dropLru .b2 s else s)).2
  else s

/-- `arc_case_iv_insert`. -/
def arcCaseIvInsert (x : Ptr) (s : Arc) : Arc :=
  { s with
    queue := fun l => if l = .t1 then s.queue l ++ [x] else s.queue l
    size := fun l => if l = .t1 then s.size l + 1 else s.size l
    dir := update s.dir x { s.dir x with arcList := some .t1 } }

/-- The entry has a node in a queue. -/
def Arc.queued (s : Arc) (x : Ptr) : Bool :=
  [ArcList.t1, .t2, .b1, .b2].any fun l => x ∈ s.queue l

/-- `dircache_remove` with `QUEUE_INDEX | DIRCACHE | DIDNAME_INDEX`. -/
def dircacheRemove (x : Ptr) (s : Arc) : Arc :=
  unindex x <|
    if s.queued x then
      let s' := match (s.dir x).arcList with
        | none => { s with queue := fun l => (s.queue l).erase x }
        | some l => unqueue l x s
      { s' with dir := update s'.dir x { s'.dir x with arcList := none } }
    else s

/-- `hash_lookup` in the DID index. -/
def Arc.lookupDid (s : Arc) (d : Dir) : Option Ptr :=
  s.dircache.find? fun y => (s.dir y).vid = d.vid && (s.dir y).did = d.did

/-- `hash_lookup` in the name index. -/
def Arc.lookupDidname (s : Arc) (d : Dir) : Option Ptr :=
  s.indexDidname.find? fun y =>
    (s.dir y).vid = d.vid && (s.dir y).pdid = d.pdid && (s.dir y).uName = d.uName

/-- `dircache_expunge_duplicate` of the entry a lookup found; the flag is `took_curdir`. -/
def dircacheExpungeDuplicate (dup : Option Ptr) (s : Bool × Arc) : Bool × Arc :=
  match dup with
  | none => s
  | some dup =>
    let took := s.2.curdir = some dup && !(s.2.dir dup).isFile
    (s.1 || took, dircacheDeferFree dup (dircacheRemove dup
      (if took then { s.2 with curdir := none } else s.2)))

/-- The start of `dircache_add` of the entry `d` at `x`: what holds its keys goes. -/
def addExpunge (x : Ptr) (d : Dir) (s : Arc) : Bool × Arc :=
  let s := (false, { s with dir := update s.dir x d })
  let s := dircacheExpungeDuplicate (s.2.lookupDid d) s
  dircacheExpungeDuplicate (s.2.lookupDidname d) s

/-- The cache at the hash insertions of `dircache_add`. -/
def addRoom (x : Ptr) (d : Dir) (s : Arc) : Arc := arcCaseIvMakeRoom (addExpunge x d s).2

/-- `hash_insert` into both tables; none when a table is full and the assertion fires. -/
def hashInserts (x : Ptr) (s : Arc) : Option Arc :=
  if s.dircache.length < 2 * s.c ∧ s.indexDidname.length < 2 * s.c then
    some { s with
      dircache := x :: s.dircache
      indexDidname := x :: s.indexDidname
      vidEntryCount :=
        update s.vidEntryCount (s.dir x).vid (s.vidEntryCount (s.dir x).vid + 1) }
  else none

/-- `dircache_add`; none when an assertion fires. -/
def dircacheAdd (x : Ptr) (d : Dir) (s : Arc) : Option Arc :=
  if s.dircache.length ≤ 2 * s.c then
    (hashInserts x (addRoom x d s)).map fun s' =>
      arcCaseIvInsert x
        (if (addExpunge x d s).1 then
          { s' with curdir := if d.isFile then none else some x } else s')
  else none

/-! ### Runs -/

/-- An operation on the cache. -/
inductive Op where
  | add (x : Ptr) (d : Dir)
  | search (x : Ptr)
  | promote (x : Ptr)
  | remove (x : Ptr)
  | chdir (x : Option Ptr)

/-- The calls the code makes: only an entry outside the cache is added, and only a cached one is
found or promoted. -/
def Op.Legal (s : Arc) : Op → Prop
  | .add x _ => x ∉ s.dircache
  | .search x => x ∈ s.dircache
  | .promote x => x ∈ s.dircache
  | .remove _ => True
  | .chdir _ => True

/-- One operation; none when an assertion fires. -/
def exec (s : Arc) : Op → Option Arc
  | .add x d => dircacheAdd x d s
  | .search x => some (searchHit x s)
  | .promote x => some (dircachePromote x s)
  | .remove x => some (dircacheRemove x s)
  | .chdir x => some { s with curdir := x }

/-- The states that operations admitted by `ok` lead to from an empty cache of capacity `c`. -/
inductive Reachable (c : ℕ) (ok : Arc → Op → Prop) : Arc → Prop
  | init (dir : Ptr → Dir) : Reachable c ok (arcInit c dir)
  | step {s s' : Arc} (op : Op) : Reachable c ok s → op.Legal s → ok s op → exec s op = some s' →
      Reachable c ok s'

/-- What `arc_verify_invariants` asserts. -/
structure ArcVerifyInvariants (s : Arc) : Prop where
  cached : s.size .t1 + s.size .t2 ≤ s.c
  ghosts : s.size .b1 + s.size .b2 ≤ s.c + (if s.promotingGhost.isSome then 1 else 0)
  target : s.p ≤ s.c
  total : s.size .t1 + s.size .b1 + (s.size .t2 + s.size .b2) ≤
    2 * s.c + (if s.promotingGhost.isSome then 1 else 0)
  full : s.promotingGhost = none →
    s.size .t1 + s.size .b1 + (s.size .t2 + s.size .b2) = 2 * s.c →
    s.size .t1 + s.size .t2 = s.c ∧ s.size .b1 + s.size .b2 = s.c

end Netatalk.Dircache
