import Netatalk.Ring

/-! # The queue of deferred child purges

The static variables of `dircache.c` that hold the deferred purges and the functions that
work on them alone.  The main thread enqueues a job at the tail of a ring of slots, the idle
worker takes jobs from the tail, and slots of finished jobs stay in the ring, without a path,
until one of its ends has moved past them.  Enqueue numbers are `unsigned int` in the source;
they are unbounded here and every comparison is made modulo `2 ^ 32`, as the source makes it.

`deferredSelect` is the first half of `dircache_process_deferred_chain`: it settles which scan
a call works on.  `Queue.live` lists the slots of unfinished jobs; every function is described
by what it does to that list and to the jobs in it. -/

namespace Netatalk.Deferred

def slash : UInt8 := 47

@[irreducible] def maxDeferredCleanups : ℕ := 5120

/-- `struct deferred_cleanup`; the length of the path is that of the list. -/
structure DeferredCleanup where
  parentPath : Option (List UInt8)
  vVid : UInt16
  chainIdx : ℕ
  seq : ℕ
  depth : ℕ

/-- The covering memo: path and volume of the last finished scan, and the number it began at. -/
structure Cover where
  path : List UInt8
  vid : UInt16
  seq : ℕ

/-- The `deferred_*` variables; `batchIdx` holds the first `deferred_batch_n` entries of the
member index. -/
structure Queue where
  queue : ℕ → DeferredCleanup
  head : ℕ
  tail : ℕ
  count : ℕ
  seq : ℕ
  scanStartedSeq : ℕ
  active : Option ℕ
  depthMin : ℕ
  depthMax : ℕ
  cover : Option Cover
  batchActive : Bool
  batchSeq : ℕ
  batchDepth : ℕ
  batchChainIdx : ℕ
  batchIdx : List ℕ

/-- The variables as the program starts with them. -/
def Queue.empty : Queue where
  queue := fun _ => ⟨none, 0, 0, 0, 0⟩
  head := 0
  tail := 0
  count := 0
  seq := 0
  scanStartedSeq := 0
  active := none
  depthMin := 0
  depthMax := 0
  cover := none
  batchActive := false
  batchSeq := 0
  batchDepth := 0
  batchChainIdx := 0
  batchIdx := []

/-- Store `c` in slot `i`. -/
def Queue.setSlot (d : Queue) (i : ℕ) (c : DeferredCleanup) : Queue :=
  { d with queue := fun j => if j = i then c else d.queue j }

/-- Store the progress of the scan of slot `i`. -/
def Queue.setChainIdx (d : Queue) (i n : ℕ) : Queue :=
  d.setSlot i { d.queue i with chainIdx := n }

/-- Move the batch scan on to the next chain. -/
def Queue.advanceBatch (d : Queue) : Queue := { d with batchChainIdx := d.batchChainIdx + 1 }

/-! ### Paths -/

def pathIsStrictChild (path parentPath : List UInt8) : Bool :=
  parentPath.length < path.length && path.take parentPath.length == parentPath &&
    path[parentPath.length]? == some slash

/-- `memcmp` on the first `n` bytes. -/
def memcmp : ℕ → List UInt8 → List UInt8 → Ordering
  | n + 1, x :: xs, y :: ys => if x = y then memcmp n xs ys else if x < y then .lt else .gt
  | _, _, _ => .eq

/-- Order of two keys by volume, then by path bytes; a shorter path sorts before its
extensions. -/
def keyCmp (vid : UInt16) (path : List UInt8) (vid' : UInt16) (path' : List UInt8) : Ordering :=
  if vid ≠ vid' then if vid < vid' then .lt else .gt
  else (memcmp (min path.length path'.length) path path').then
    (compare path.length path'.length)

/-- `(a - b) >= 0x80000000u`: the number `a` counts as earlier than `b`. -/
def seqBefore (a b : ℕ) : Bool := decide (2147483648 ≤ ((a : ℤ) - b) % 4294967296)

/-! ### The ring -/

/-- The path bytes of a slot; a finished slot has none. -/
def DeferredCleanup.path (c : DeferredCleanup) : List UInt8 := c.parentPath.getD []

/-- The part of `dircache_remove_children_defer` that fills a slot. -/
def deferredEnqueue (d : Queue) (vid : UInt16) (path : List UInt8) : Queue :=
  let dc : DeferredCleanup :=
    { parentPath := some path, vVid := vid, chainIdx := 0, seq := d.seq,
      depth := path.count slash }
  { d.setSlot d.tail dc with
    seq := d.seq + 1
    depthMin := if d.count = 0 then dc.depth else min dc.depth d.depthMin
    depthMax := if d.count = 0 then dc.depth else max dc.depth d.depthMax
    tail := (d.tail + 1) % maxDeferredCleanups
    count := d.count + 1 }

def deferredJobKill (d : Queue) (idx : ℕ) : Queue :=
  d.setSlot idx { d.queue idx with parentPath := none, vVid := 0 }

/-- A round of `deferred_compact_head` that drops the oldest slot. -/
def Queue.popHead (d : Queue) : Queue :=
  { d.setSlot d.head { d.queue d.head with vVid := 0 } with
    head := (d.head + 1) % maxDeferredCleanups
    count := d.count - 1 }

/-- The loop of `deferred_compact_head`; `deferred_count` bounds its rounds. -/
def compactHeadLoop : ℕ → Queue → Queue
  | 0, d => d
  | n + 1, d =>
    if (d.queue d.head).parentPath = none then compactHeadLoop n d.popHead else d

def deferredCompactHead (d : Queue) : Queue := compactHeadLoop d.count d

/-- The newest slot of the ring. -/
def Queue.last (d : Queue) : ℕ := (d.tail + maxDeferredCleanups - 1) % maxDeferredCleanups

/-- A round of `deferred_compact_tail` that drops the newest slot. -/
def Queue.popTail (d : Queue) : Queue :=
  { d.setSlot d.last { d.queue d.last with vVid := 0 } with
    tail := d.last
    count := d.count - 1 }

/-- The loop of `deferred_compact_tail`. -/
def compactTailLoop : ℕ → Queue → Queue
  | 0, d => d
  | n + 1, d =>
    if (d.queue d.last).parentPath ≠ none then d else compactTailLoop n d.popTail

def deferredCompactTail (d : Queue) : Queue :=
  let d := compactTailLoop d.count d
  if d.count = 0 then { d with depthMin := 0, depthMax := 0 } else d

/-- The slots of the ring from head to tail. -/
def Queue.slots (d : Queue) : List ℕ := ringSlots maxDeferredCleanups d.head d.count

/-- The slots of unfinished jobs, in the order of the ring. -/
def Queue.live (d : Queue) : List ℕ := d.slots.filter fun i => (d.queue i).parentPath.isSome

/-! ### The covering memo -/

/-- Remember a finished scan; without memory no memo remains. -/
def deferredCoverSet (alloc : Bool) (d : Queue) (done : DeferredCleanup) (scanSeq : ℕ) : Queue :=
  { d with cover := if alloc then some ⟨done.path, done.vVid, scanSeq⟩ else none }

def deferredCoverDrops (d : Queue) (j : DeferredCleanup) : Bool :=
  match d.cover with
  | none => false
  | some c =>
    seqBefore j.seq c.seq && j.vVid == c.vid &&
      if j.path.length = c.path.length then j.path == c.path
      else pathIsStrictChild j.path c.path

/-- The end of a single scan: kill the slot, drop the cursor, compact the ring. -/
def retireActive (d : Queue) (slot : ℕ) : Queue :=
  deferredCompactHead (deferredCompactTail { deferredJobKill d slot with active := none })

/-! ### The flat batch -/

def deferredBatchCmp (d : Queue) (a b : ℕ) : Ordering :=
  keyCmp (d.queue a).vVid (d.queue a).path (d.queue b).vVid (d.queue b).path

/-- The members are all unfinished jobs; `qsort` orders them. -/
def deferredBatchStart (d : Queue) : Option Queue :=
  if d.live = [] then none
  else some
    { d with
      batchIdx := d.live.mergeSort fun a b => (deferredBatchCmp d a b).isLE
      batchActive := true
      batchSeq := d.seq
      batchDepth := d.depthMin
      batchChainIdx := 0 }

/-- One member at the end of a batch. -/
def batchRetire (d : Queue) (idx : ℕ) : Queue :=
  if (d.queue idx).parentPath.isSome && seqBefore (d.queue idx).seq d.batchSeq then
    deferredJobKill d idx
  else d

def deferredBatchComplete (d : Queue) : Queue :=
  let d := d.batchIdx.foldl batchRetire d
  deferredCompactHead (deferredCompactTail { d with batchActive := false, batchIdx := [] })

/-- Index of the slash number `depth + 1` of a path, `0` without one. -/
def candLen (depth : ℕ) : List UInt8 → ℕ → ℕ → ℕ
  | [], _, _ => 0
  | b :: bs, slashes, bi =>
    if b = slash then
      if slashes + 1 = depth + 1 then bi else candLen depth bs (slashes + 1) (bi + 1)
    else candLen depth bs slashes (bi + 1)

/-! ### Selection -/

/-- What a call of the worker goes on with. -/
inductive Selection where
  | idle
  | batch
  | single (slot : ℕ)

/-- The first half of `dircache_process_deferred_chain`: the scan that the call works on. -/
def deferredSelect (d : Queue) : Queue × Selection :=
  if d.count = 0 then (d, .idle)
  else if d.batchActive then (d, .batch)
  else
    match d.active with
    | some slot => (d, .single slot)
    | none =>
      let d := deferredCompactHead (deferredCompactTail d)
      if d.count = 0 then (d, .idle)
      else if 1 < d.count && d.depthMin == d.depthMax then
        match deferredBatchStart d with
        | some d => (d, .batch)
        | none => (d, .idle)
      else if deferredCoverDrops d (d.queue d.last) then
        (deferredCompactTail (deferredJobKill d d.last), .idle)
      else ({ d with active := some d.last, scanStartedSeq := d.seq }, .single d.last)

end Netatalk.Deferred
