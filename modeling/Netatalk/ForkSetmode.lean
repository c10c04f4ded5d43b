import Netatalk.AdLockCall

/-! # Share modes of the forks that several processes open

The model of `fork_setmode` (`etc/afpd/fork.c`) with `testlock` and `ad_testlock`
(`libatalk/adouble/ad_lock.c`), run by any number of processes on one file.

A share mode is kept in the band of lock bytes past the end of every file: an open takes a read
lock on one byte for each access and each deny it asks for, after it has tested the bytes that
stand in its way.  A `Script` is a call of `fork_setmode` as the tests and locks it makes, each
of which is one call into the kernel, and `Step` lets one process make the next of them.

Each process keeps one `struct adouble` for the file, and the bands of both its forks live on
the data file (`ad_lock` sends an `ADLOCK_FILELOCK` request of the resource fork there, see
`adLock_filelock`), so a process is the descriptor `ad_data_fork` with its lock array, the forks
it has open, and the call it is in. -/

namespace Netatalk.ShareMode

open AdLock Function

/-! ### The band -/

/-- The slots of the share-mode band. -/
inductive Band where
  | openWr
  | openRd
  | denyWr
  | denyRd
  | openNone
deriving DecidableEq, Repr

/-- `AD_FILELOCK_OPEN_WR` and the other offsets of the data fork's band. -/
def Band.off : Band → ℤ
  | .openWr => adFilelockBase + 0
  | .openRd => adFilelockBase + 1
  | .denyWr => adFilelockBase + 4
  | .denyRd => adFilelockBase + 5
  | .openNone => adFilelockBase + 8

/-- The byte of a slot for a fork. -/
def bandOff (eid : Eid) (b : Band) : ℤ :=
  match eid with
  | .dfork => b.off
  | .rfork => rf2off b.off

/-- The slot that stands in the way of a slot. -/
def Band.opposite : Band → Option Band
  | .openWr => some .denyWr
  | .openRd => some .denyRd
  | .denyWr => some .openWr
  | .denyRd => some .openRd
  | .openNone => none

theorem Band.opposite_symm {b b' : Band} (h : b.opposite = some b') : b'.opposite = some b := by
  cases b <;> cases h <;> rfl

/-- The `OPENACC_*` bits. -/
structure Access where
  rd : Bool
  wr : Bool
  drd : Bool
  dwr : Bool
deriving DecidableEq, Repr

/-- The slots an open with these bits takes. -/
def Access.wants (a : Access) : Band → Bool
  | .openWr => a.wr
  | .openRd => a.rd
  | .denyWr => a.dwr
  | .denyRd => a.drd
  | .openNone => !(a.wr || a.rd || a.dwr || a.drd)

/-! ### `fork_setmode` -/

/-- A call as the tests and locks it still makes, each with what follows on its answer. -/
inductive Script where
  | ret (r : Ret)
  | test (b : Band) (k : Option Bool → Script)
  | lock (b : Band) (k : Ret → Script)

/-- A test whose failure ends the call. -/
def testThen (b : Band) (k : Bool → Script) : Script :=
  .test b fun
    | none => .ret (.err .fcntl)
    | some set => k set

/-- A lock whose failure ends the call. -/
def lockThen (b : Band) (k : Script) : Script :=
  .lock b fun
    | .ok => k
    | r => .ret r

/-- The half of `fork_setmode` for reading or for writing. -/
def setmodeHalf (acc deny : Bool) (openBand denyBand : Band) (next : Script) : Script :=
  let locks :=
    let denyLock := if deny then lockThen denyBand next else next
    if acc then lockThen openBand denyLock else denyLock
  let rest (set : Bool) := testThen denyBand fun denyset =>
    if acc && denyset then .ret (.err .eacces)
    else if deny && set then .ret (.err .eacces)
    else locks
  if acc || deny then
    -- the open band answers the deny request alone
    if deny then testThen openBand rest else rest false
  else next

/-- `fork_setmode`. -/
def forkSetmode (a : Access) : Script :=
  if !(a.wr || a.rd || a.dwr || a.drd) then .lock .openNone .ret
  else
    setmodeHalf a.rd a.drd .openRd .denyRd
      (setmodeHalf a.wr a.dwr .openWr .denyWr (.ret .ok))

/-! ### The calls into the kernel -/

/-- What `F_GETLK` answers: no lock, a lock of another process, or a failure, with `EACCES` or
`EAGAIN` or with another `errno`. -/
inductive Getlk where
  | unlck
  | locked
  | eacces
  | error
deriving DecidableEq, Repr

/-- `testlock` on one byte: a lock of our own array answers before the kernel is asked. -/
def testlock (g : Getlk) (off : ℤ) (f : LockFile) : Option Bool :=
  if f.lock.any fun e => overlap off 1 e.lock.lStart e.lock.lLen then some true
  else
    match f.fd, g with
    | .symlink, _ => some false
    | .closed, _ => none
    | .file, .unlck => some false
    | .file, .locked => some true
    | .file, .eacces => some true
    | .file, .error => none

/-- `ad_lock` with `ADLOCK_RD | ADLOCK_FILELOCK`, on the data file's descriptor. -/
def bandLock (env : Env) (eid : Eid) (b : Band) (fork : ℤ) (f : LockFile) : Ret × LockFile :=
  adLockFd env ⟨.rd, false, true⟩ 0 (bandOff eid b) 1 fork f

/-! ### Processes -/

/-- An open fork: its reference number, which fork of the file it is, and its share mode. -/
structure Fork where
  ref : ℤ
  eid : Eid
  access : Access
deriving DecidableEq, Repr

/-- A `fork_setmode` call under way.  The code keeps `script` only; `found` lists the slots a
test of the call has found free and `taken` those it has locked. -/
structure Pending where
  fork : Fork
  script : Script
  found : List Band
  taken : List Band

/-- A process: its descriptor on the file, the forks whose open has completed, and the open it
is in. -/
structure Proc where
  file : LockFile
  opens : List Fork
  pending : Option Pending

/-- The call after the answer to a test. -/
def Pending.tested (c : Pending) (b : Band) (k : Option Bool → Script) (ans : Option Bool) :
    Pending :=
  { c with script := k ans, found := if ans = some false then b :: c.found else c.found }

/-- The call after the answer to a lock. -/
def Pending.locked (c : Pending) (b : Band) (k : Ret → Script) (r : Ret) : Pending :=
  { c with script := k r, taken := if r = .ok then b :: c.taken else c.taken }

variable {P : Type} [DecidableEq P]

/-- The kernel's record: a lock of type `t` conflicts with a byte another process holds so. -/
def Conflicts : FType → Held → Prop
  | .rdlck, h => h = .wr
  | .wrlck, h => h ≠ .free
  | .unlck, _ => False

/-- What POSIX promises process `p` about `F_SETLK`: a request over a byte another process
holds in conflict is refused, and a release is granted. -/
structure Kernel (s : P → Proc) (p : P) (env : Env) : Prop where
  refuses : ∀ n r b q, q ≠ p → r.lStart ≤ b → b ≤ adfLockLast r.lStart r.lLen →
    Conflicts r.lType ((s q).file.held b) → env.refuses n r = true
  unlocks : env.Unlocks

/-- What POSIX promises process `p` about the write probe of one byte. -/
def Probe (s : P → Proc) (p : P) (off : ℤ) : Getlk → Prop
  | .unlck => ∀ q, q ≠ p → (s q).file.held off = .free
  | .locked => ∃ q, q ≠ p ∧ (s q).file.held off ≠ .free
  | .eacces => True
  | .error => True

/-- What a step is: the lock of a slot, or anything else. -/
inductive Act (P : Type) where
  | lock (p : P) (b : Band)
  | other

/-- One process makes its next call on the file. -/
inductive Step (s : P → Proc) : Act P → (P → Proc) → Prop
  /-- an open begins, under a reference number no open fork of the process has -/
  | call (p : P) (o : Fork) : (s p).pending = none → (∀ o' ∈ (s p).opens, o'.ref ≠ o.ref) →
      Step s .other (update s p
        { s p with pending := some ⟨o, forkSetmode o.access, [], []⟩ })
  | test (p : P) (c : Pending) (b : Band) (k : Option Bool → Script) (g : Getlk) :
      (s p).pending = some c → c.script = .test b k → Probe s p (bandOff c.fork.eid b) g →
      Step s .other (update s p { s p with
        pending := some (c.tested b k (testlock g (bandOff c.fork.eid b) (s p).file)) })
  | lock (p : P) (c : Pending) (b : Band) (k : Ret → Script) (env : Env) :
      (s p).pending = some c → c.script = .lock b k → Kernel s p env →
      Step s (.lock p b) (update s p { s p with
        file := (bandLock env c.fork.eid b c.fork.ref (s p).file).2
        pending := some (c.locked b k (bandLock env c.fork.eid b c.fork.ref (s p).file).1) })
  /-- the call returns and the open is complete -/
  | opened (p : P) (c : Pending) : (s p).pending = some c → c.script = .ret .ok →
      Step s .other (update s p
        { s p with opens := c.fork :: (s p).opens, pending := none })
  /-- the call fails, and the caller releases what it has taken -/
  | failed (p : P) (c : Pending) (r : Ret) (env : Env) : (s p).pending = some c →
      c.script = .ret r → r ≠ .ok → Kernel s p env →
      Step s .other (update s p
        { s p with file := adfUnlock env c.fork.ref (s p).file, pending := none })
  /-- an open fork is closed -/
  | close (p : P) (o : Fork) (env : Env) : (s p).pending = none → o ∈ (s p).opens →
      Kernel s p env →
      Step s .other (update s p { s p with
        file := adfUnlock env o.ref (s p).file, opens := (s p).opens.filter (·.ref ≠ o.ref) })

/-- A process that has the file open and holds nothing on it. -/
def Proc.fresh (rdwr : Bool) : Proc := ⟨⟨.file, rdwr, [], 0, .empty, 0⟩, [], none⟩

/-- Every process at its start. -/
def Start (s : P → Proc) : Prop := ∀ p, ∃ rdwr, s p = .fresh rdwr

/-- No two completed opens of one fork are in each other's way: none reads (writes) what
another one denies reading (writing). -/
def Exclusive (s : P → Proc) : Prop :=
  ∀ p q, ∀ o ∈ (s p).opens, ∀ o' ∈ (s q).opens, o.eid = o'.eid → (p ≠ q ∨ o ≠ o') →
    ¬ (o.access.rd = true ∧ o'.access.drd = true) ∧
    ¬ (o.access.wr = true ∧ o'.access.dwr = true)

/-- The call has found the slot free, and has still to take the slot that needs it free. -/
def Pending.ReliesOn (c : Pending) (b : Band) : Prop :=
  b ∈ c.found ∧ ∃ b', b.opposite = some b' ∧ c.fork.access.wants b' = true ∧ b' ∉ c.taken

/-- A step that locks no slot of a fork on which another process's call relies. -/
def Undisturbed (s : P → Proc) : Act P → Prop
  | .lock p b => ∀ c, (s p).pending = some c → ∀ q, q ≠ p → ∀ d, (s q).pending = some d →
      d.fork.eid = c.fork.eid → ¬ d.ReliesOn b
  | .other => True

/-- Runs of the processes. -/
def Run : (P → Proc) → (P → Proc) → Prop :=
  Relation.ReflTransGen fun s s' => ∃ a, Step s a s'

/-- Runs in which no process locks a slot between another one's test of it and the lock that
rests on the test. -/
def UndisturbedRun : (P → Proc) → (P → Proc) → Prop :=
  Relation.ReflTransGen fun s s' => ∃ a, Step s a s' ∧ Undisturbed s a

end Netatalk.ShareMode
