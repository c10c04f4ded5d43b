import Netatalk.Hash
import Netatalk.DeferredBatch

/-! # The cache, the idle worker and the main thread

`State` is what the main thread and the idle worker share: the hash table of cached entries,
the current directory, the open volumes, the queue of deferred purges and the grant.  The
worker touches it only inside a call that began under a grant, and the main thread only
outside of one, so a run is a sequence of `Event`s, and `step` carries out one of them:
insertions and removals with the resizing they trigger, path changes, deferrals, opening and
closing of volumes, grants, revokes, and one call of `dircache_process_deferred_chain`.  A
revoke may arrive in the middle of a call; `grants` counts the checks of the grant that still
succeed. -/

namespace Netatalk.Deferred

open Hash

/-! ### Entries -/

/-- The byte order of the host, which decides what `htonl` does. -/
class ByteOrder where
  bigEndian : Bool

/-- `htonl` and `ntohl`. -/
def htonl [ByteOrder] (x : UInt32) : UInt32 :=
  if ByteOrder.bigEndian then x
  else x >>> 24 ||| (x >>> 8 &&& (0xff00 : UInt32)) ||| (x <<< 8 &&& (0xff0000 : UInt32)) |||
    x <<< 24

/-- The fields of `struct dir` that the purges read; `addr` is the address of the structure. -/
structure Dir where
  addr : ℕ
  dVid : UInt16
  dDid : UInt32
  dFullpath : Option (List UInt8)
  isFile : Bool
deriving DecidableEq

def cnidInvalid : UInt32 := 0

def cnidStart : UInt32 := 17

/-- FNV-1a over the volume and the directory number. -/
def hashVidDid (k : Dir) : UInt32 :=
  let hash : UInt32 := 2166136261
  let hash := (hash ^^^ (k.dVid >>> 8).toUInt32) * 16777619
  let hash := (hash ^^^ k.dVid.toUInt32) * 16777619
  let hash := (hash ^^^ k.dDid >>> 24) * 16777619
  let hash := (hash ^^^ (k.dDid >>> 16 &&& 0xff)) * 16777619
  let hash := (hash ^^^ (k.dDid >>> 8 &&& 0xff)) * 16777619
  (hash ^^^ (k.dDid &&& 0xff)) * 16777619

/-- The hash value of an entry as the tables use it. -/
def hkey (k : Dir) : ℕ := (hashVidDid k).toNat

/-- `hash_comp_vid_did` finds no difference. -/
def sameVidDid (k1 k2 : Dir) : Bool := k1.dDid == k2.dDid && k1.dVid == k2.dVid

/-- The path of an entry lies strictly below `parentPath`. -/
def Dir.isBelow (e : Dir) (parentPath : List UInt8) : Bool :=
  match e.dFullpath with
  | some ep => pathIsStrictChild ep parentPath
  | none => false

/-- The entries that `dir_remove_and_free` leaves alone. -/
def Dir.reserved [ByteOrder] (e : Dir) : Bool :=
  e.dDid == htonl 1 || e.dDid == htonl 2 || e.dDid == cnidInvalid

def dirRemoveAndFree [ByteOrder] (t : Table Dir) (dir : Dir) : Table Dir :=
  if dir.reserved then t else hashScanDelete hkey t dir

/-! ### The state -/

/-- The data that the main thread and the worker share; `curdir` is the address of the current
directory and `vols` lists the open volumes. -/
structure State where
  dircache : Table Dir
  curdir : Option ℕ
  vols : List UInt16
  deferred : Queue
  canWork : Bool

/-- The state after `dircache_init`. -/
def State.init (maxcount : ℕ) : State := ⟨hashCreate maxcount, none, [], Queue.empty, false⟩

/-- Whether `getvolbyvid` finds an open volume. -/
def State.getvolbyvid (s : State) (vid : UInt16) : Bool := s.vols.contains vid

/-! ### The worker -/

def deferredChainBatch : ℕ := 16

def hashChainHead (t : Table Dir) (chain : ℕ) : List Dir :=
  if chain < t.nchains then t.table chain else []

/-- The walk along a chain that collects the stale entries, at most `DEFERRED_CHAIN_BATCH`. -/
def collectLoop (stale : Dir → Bool) (curdir : Option ℕ) : List Dir → List Dir → List Dir
  | [], toRemove => toRemove
  | entry :: next, toRemove =>
    if curdir = some entry.addr then collectLoop stale curdir next toRemove
    else if stale entry then
      if toRemove.length < deferredChainBatch then
        collectLoop stale curdir next (toRemove ++ [entry])
      else toRemove
    else collectLoop stale curdir next toRemove

/-- The removal of the collected entries; it ends at the first check that finds the grant
revoked, and says whether it came to the end of the list. -/
def removeLoop [ByteOrder] (hasVol : Dir → Bool) : ℕ → List Dir → Table Dir → Table Dir × Bool
  | _, [], t => (t, true)
  | 0, _ :: _, t => (t, false)
  | grants + 1, e :: rest, t =>
    removeLoop hasVol grants rest (if hasVol e then dirRemoveAndFree t e else t)

/-- The part that single scans and batch scans share: the work on one chain, and whether the
cursor moves on. -/
def scanChain [ByteOrder] (stale hasVol : Dir → Bool) (grants chain : ℕ) (s : State) :
    Table Dir × Bool :=
  let toRemove := collectLoop stale s.curdir (hashChainHead s.dircache chain) []
  let r := removeLoop hasVol grants toRemove s.dircache
  (r.1, r.2 && toRemove.length < deferredChainBatch)

/-- What the scan of a single job removes. -/
def singleStale (d : Queue) (slot : ℕ) (e : Dir) : Bool :=
  e.dDid != cnidInvalid && e.isBelow (d.queue slot).path

/-- What a batch scan removes. -/
def batchStale (d : Queue) (e : Dir) : Bool :=
  e.dDid != cnidInvalid &&
    match e.dFullpath with
    | some ep => (deferredBatchMatch d e.dVid ep).isSome
    | none => false

def deferredBatchChain [ByteOrder] (grants : ℕ) (s : State) : State × Bool :=
  let d := s.deferred
  let nchains := s.dircache.nchains
  if nchains ≤ d.batchChainIdx then
    let d := deferredBatchComplete d
    ({ s with deferred := d }, 0 < d.count)
  else
    let r := scanChain (batchStale d) (fun e => s.getvolbyvid e.dVid) grants d.batchChainIdx s
    if r.2 then
      let d := d.advanceBatch
      if nchains ≤ d.batchChainIdx then
        let d := deferredBatchComplete d
        ({ s with dircache := r.1, deferred := d }, 0 < d.count)
      else ({ s with dircache := r.1, deferred := d }, true)
    else ({ s with dircache := r.1 }, true)

/-- The second half of `dircache_process_deferred_chain`: one chain for the active job. -/
def deferredSingleChain [ByteOrder] (grants : ℕ) (alloc : Bool) (slot : ℕ) (s : State) :
    State × Bool :=
  let d := s.deferred
  let dc := d.queue slot
  let nchains := s.dircache.nchains
  if !s.getvolbyvid dc.vVid then
    let d := retireActive d slot
    ({ s with deferred := d }, 0 < d.count)
  else if nchains ≤ dc.chainIdx then
    let d := retireActive (deferredCoverSet alloc d dc d.scanStartedSeq) slot
    ({ s with deferred := d }, 0 < d.count)
  else
    let r := scanChain (singleStale d slot) (fun _ => true) grants dc.chainIdx s
    if r.2 then
      let d := d.setChainIdx slot (dc.chainIdx + 1)
      if nchains ≤ dc.chainIdx + 1 then
        let d := retireActive (deferredCoverSet alloc d (d.queue slot) d.scanStartedSeq) slot
        ({ s with dircache := r.1, deferred := d }, 0 < d.count)
      else ({ s with dircache := r.1, deferred := d }, true)
    else ({ s with dircache := r.1 }, true)

/-- One call by the worker; `grants` checks of the grant succeed, `alloc` tells whether there
is memory for the memo.  The result tells whether more work remains. -/
def dircacheProcessDeferredChain [ByteOrder] (grants : ℕ) (alloc : Bool) (s : State) :
    State × Bool :=
  match deferredSelect s.deferred with
  | (d, .idle) => ({ s with deferred := d }, 0 < d.count)
  | (d, .batch) => deferredBatchChain grants { s with deferred := d }
  | (d, .single slot) => deferredSingleChain grants alloc slot { s with deferred := d }

/-! ### The main thread -/

/-- The synchronous purge; a removed current directory is left to a later change of it. -/
def dircacheRemoveChildren (dir : Dir) (s : State) : State :=
  match dir.dFullpath with
  | none => s
  | some path =>
    if path = [] then s
    else
      let stale := fun e : Dir => e.addr != dir.addr && e.isBelow path
      { s with
        dircache := hashScanRemove hkey stale s.dircache
        curdir :=
          if s.dircache.nodes.any fun e => stale e && s.curdir == some e.addr then none
          else s.curdir }

/-- Queue a purge; `active` tells whether the worker runs, `alloc` whether there is memory for
the path. -/
def dircacheRemoveChildrenDefer (vid : UInt16) (dir : Dir) (active alloc : Bool) (s : State) :
    State :=
  match dir.dFullpath with
  | none => s
  | some path =>
    if dir.isFile then s
    else if !active || maxDeferredCleanups ≤ s.deferred.count || !alloc then
      dircacheRemoveChildren dir s
    else { s with deferred := deferredEnqueue s.deferred vid path }

/-- One slot of `dircache_flush_deferred_for_vol`. -/
def flushSlot [ByteOrder] (vid : UInt16) (s : State) (idx : ℕ) : State :=
  let dc := s.deferred.queue idx
  if dc.vVid = vid then
    { s with
      dircache :=
        if dc.parentPath.isSome && s.getvolbyvid vid then
          hashScanRemove hkey (fun e => s.curdir != some e.addr && e.isBelow dc.path &&
            !e.reserved) s.dircache
        else s.dircache
      deferred := deferredJobKill s.deferred idx }
  else s

/-- The scans in progress that a flush of the jobs of `vid` drops. -/
def Queue.dropScans (d : Queue) (vid : UInt16) : Queue :=
  { d with
    active := d.active.filter fun a => (d.queue a).vVid != vid
    batchActive := false
    batchIdx := []
    cover := d.cover.filter fun c => c.vid != vid }

def dircacheFlushDeferredForVol [ByteOrder] (vid : UInt16) (s : State) : State :=
  let s := s.deferred.slots.foldl (flushSlot vid) { s with deferred := s.deferred.dropScans vid }
  { s with deferred := deferredCompactHead s.deferred }

/-- What `closevol` does to the shared data: the volume is no longer open and
`dircache_purge_vol` removes its entries. -/
def closevol (vid : UInt16) (s : State) : State :=
  { s with
    vols := s.vols.filter fun v => v != vid
    dircache := hashScanRemove hkey (fun e => e.dVid == vid) s.dircache }

/-- The change of the path of a cached entry in place. -/
def dirModifyPath (t : Table Dir) (dir : Dir) (path : Option (List UInt8)) : Table Dir :=
  t.setChain (chainOf hkey t dir)
    ((t.table (chainOf hkey t dir)).map fun e =>
      if e = dir then { dir with dFullpath := path } else e)

/-! ### Runs -/

/-- What can happen next. -/
inductive Event where
  | insert (dir : Dir) (realloc : Bool)
  | remove (dir : Dir)
  | modifyPath (dir : Dir) (path : Option (List UInt8))
  | chdir (curdir : Option ℕ)
  | defer (vid : UInt16) (dir : Dir) (active alloc : Bool)
  | openvol (vid : UInt16)
  | closevol (vid : UInt16) (flush : Bool)
  | grant
  | revoke
  | work (grants : ℕ) (alloc still : Bool)

/-- The event is a call of the worker. -/
def Event.isWork : Event → Bool
  | .work .. => true
  | _ => false

/-- One event.  The main thread acts only without a grant.  An insertion follows the checks of
`dircache_add`; a removal that meets the current directory leaves none.  A volume closes with a
flush on request of the client and without one at logout, both times without a current
directory.  A call of the worker begins under a grant; if the grant is `still` there at its
end, all its checks found it. -/
def step [ByteOrder] : Event → State → Option State
  | .insert dir realloc, s =>
    if !s.canWork && s.getvolbyvid dir.dVid && cnidStart ≤ htonl dir.dDid &&
        (hashLookup hkey sameVidDid s.dircache dir).isNone &&
        s.dircache.nodes.all (fun e => e.addr != dir.addr) &&
        s.dircache.nodecount < s.dircache.maxcount then
      some { s with dircache := hashInsert hkey realloc s.dircache dir }
    else none
  | .remove dir, s =>
    if !s.canWork && decide (Holds hkey s.dircache dir) then
      some
        { s with
          dircache := hashDelete hkey s.dircache dir
          curdir := if s.curdir = some dir.addr then none else s.curdir }
    else none
  | .modifyPath dir path, s =>
    if !s.canWork && decide (Holds hkey s.dircache dir) then
      some { s with dircache := dirModifyPath s.dircache dir path }
    else none
  | .chdir curdir, s => if !s.canWork then some { s with curdir := curdir } else none
  | .defer vid dir active alloc, s =>
    if !s.canWork then some (dircacheRemoveChildrenDefer vid dir active alloc s) else none
  | .openvol vid, s => if !s.canWork then some { s with vols := vid :: s.vols } else none
  | .closevol vid flush, s =>
    if !s.canWork && s.getvolbyvid vid then
      let s := { s with curdir := none }
      some (closevol vid (if flush then dircacheFlushDeferredForVol vid s else s))
    else none
  | .grant, s => if !s.canWork then some { s with canWork := true } else none
  | .revoke, s => if s.canWork then some { s with canWork := false } else none
  | .work grants alloc still, s =>
    if s.canWork && (!still || deferredChainBatch ≤ grants) then
      some { (dircacheProcessDeferredChain grants alloc s).1 with canWork := still }
    else none

/-- What each step does, with the parts of its guard that matter later. -/
inductive StepTo [ByteOrder] (s : State) : Event → State → Prop where
  | insert {dir : Dir} (realloc : Bool) (hvol : s.getvolbyvid dir.dVid = true)
      (hnum : cnidStart ≤ htonl dir.dDid)
      (hlookup : hashLookup hkey sameVidDid s.dircache dir = none) :
      StepTo s (.insert dir realloc)
        { s with dircache := hashInsert hkey realloc s.dircache dir }
  | remove (dir : Dir) : StepTo s (.remove dir)
      { s with
        dircache := hashDelete hkey s.dircache dir
        curdir := if s.curdir = some dir.addr then none else s.curdir }
  | modifyPath {dir : Dir} (path : Option (List UInt8)) (hheld : Holds hkey s.dircache dir) :
      StepTo s (.modifyPath dir path) { s with dircache := dirModifyPath s.dircache dir path }
  | chdir (curdir : Option ℕ) : StepTo s (.chdir curdir) { s with curdir := curdir }
  | defer (vid : UInt16) (dir : Dir) (active alloc : Bool) :
      StepTo s (.defer vid dir active alloc) (dircacheRemoveChildrenDefer vid dir active alloc s)
  | openvol (vid : UInt16) : StepTo s (.openvol vid) { s with vols := vid :: s.vols }
  | closevol (vid : UInt16) (flush : Bool) :
      StepTo s (.closevol vid flush) (closevol vid
        (if flush then dircacheFlushDeferredForVol vid { s with curdir := none }
        else { s with curdir := none }))
  | grant : StepTo s .grant { s with canWork := true }
  | revoke : StepTo s .revoke { s with canWork := false }
  | work (grants : ℕ) (alloc still : Bool) : StepTo s (.work grants alloc still)
      { (dircacheProcessDeferredChain grants alloc s).1 with canWork := still }

theorem stepTo_of_step [ByteOrder] {ev : Event} {s s' : State} (hs : step ev s = some s') :
    StepTo s ev s' := by
  cases ev with
  | insert dir realloc =>
    simp only [step, Option.ite_none_right_eq_some, Bool.and_eq_true, decide_eq_true_eq,
      Option.isNone_iff_eq_none] at hs
    obtain ⟨⟨⟨⟨⟨_, hvol⟩, hnum⟩, hlookup⟩, _⟩, _⟩ := hs.1
    cases hs.2
    exact .insert realloc hvol hnum hlookup
  | modifyPath dir path =>
    simp only [step, Option.ite_none_right_eq_some, Bool.and_eq_true, decide_eq_true_eq] at hs
    cases hs.2
    exact .modifyPath path hs.1.2
  | remove | chdir | defer | openvol | closevol | grant | revoke | work =>
    simp only [step, Option.ite_none_right_eq_some] at hs
    cases hs.2
    constructor

/-- States that a run from the start can come to. -/
def Reachable [ByteOrder] (maxcount : ℕ) : State → Prop :=
  Relation.ReflTransGen (fun s s' => ∃ ev, step ev s = some s') (State.init maxcount)

end Netatalk.Deferred
