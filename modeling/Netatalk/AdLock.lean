import Mathlib
import Netatalk.LowerBound
import Netatalk.RecordLock

/-! # Byte range and share mode locks on AppleDouble forks

The model of `libatalk/adouble/ad_lock.c`.  A `LockFile` is a fork descriptor `struct ad_fd`
with its lock array, together with the kernel's locks of this process on the file the
descriptor is open on.

* **Offsets.**  `off_t` values are integers; `lockTop` is the largest.  Every sum and
  difference the code forms on a request that has passed its checks stays inside
  `[-1, lockTop]`, so no operation wraps and none is reduced.
* **The array.**  `lock` lists the entries in the order of the array; `adf_lockcount` is its
  length.  The pointer `adf_lock` is `NULL` exactly while `lockmax` is `0`.
* **The environment.**  `Env` answers the system calls: `refuses n r` tells whether the `n`-th
  system call, the `F_SETLK` request `r`, fails, and `allocFails n` whether the `n`-th one, a
  `realloc`, returns `NULL`.  The field `clock` of a file counts the calls made.  Nothing
  restricts an environment; what POSIX promises about `F_UNLCK` is the predicate
  `Env.Unlocks`. -/

namespace Netatalk.AdLock

/-! ### Requests -/

/-- `F_RDLCK`, `F_WRLCK` and `F_UNLCK`. -/
inductive FType where
  | rdlck
  | wrlck
  | unlck
deriving DecidableEq, Repr

/-- The state a granted request leaves its bytes in. -/
def FType.held : FType → Held
  | .rdlck => .rd
  | .wrlck => .wr
  | .unlck => .free

/-- `struct flock` with `l_whence = SEEK_SET`. -/
structure Flock where
  lType : FType
  lStart : ℤ
  lLen : ℤ
deriving DecidableEq, Repr

/-- The bits `ADLOCK_MASK` of a lock type: `ADLOCK_CLR`, `ADLOCK_RD` or `ADLOCK_WR`. -/
inductive LockMode where
  | clr
  | rd
  | wr
deriving DecidableEq, Repr

/-- A lock type: the mode and the flags `ADLOCK_UPGRADE` and `ADLOCK_FILELOCK`. -/
structure Locktype where
  mode : LockMode
  upgrade : Bool
  filelock : Bool
deriving DecidableEq, Repr

/-- `XLATE_FCNTL_LOCK`. -/
def xlateFcntlLock : LockMode → FType
  | .rd => .rdlck
  | .wr => .wrlck
  | .clr => .unlck

/-- `LOCK_TOP`: the largest offset `off_t` holds. -/
def lockTop : ℤ := 2 ^ 63 - 1

/-- `AD_FILELOCK_BASE`: the first byte of the share-mode band. -/
def adFilelockBase : ℤ := 2 ^ 63 - 1 - 9

/-- `BYTELOCK_MAX`: the length that asks for the rest of the file. -/
def bytelockMax : ℤ := adFilelockBase - 1

/-- `OVERLAP`: the ranges share a byte, where a zero length runs to the end of the file. -/
def overlap (a alen b blen : ℤ) : Bool :=
  (alen = 0 && a ≤ b) || (blen = 0 && b ≤ a) || (alen > b - a && blen > a - b)

/-- `adf_lock_fits`. -/
def adfLockFits (start len : ℤ) : Bool := len - 1 ≤ lockTop - start

/-- `adf_lock_last`: last byte of a range, the largest offset for a zero length. -/
def adfLockLast (start len : ℤ) : ℤ := if len > 0 then start + (len - 1) else lockTop

/-- `rf2off`: the resource fork's band offset of a data fork band offset. -/
def rf2off (off : ℤ) : ℤ :=
  if off = adFilelockBase + 0 then adFilelockBase + 2
  else if off = adFilelockBase + 1 then adFilelockBase + 3
  else if off = adFilelockBase + 5 then adFilelockBase + 7
  else if off = adFilelockBase + 4 then adFilelockBase + 6
  else if off = adFilelockBase + 8 then adFilelockBase + 9
  else off

/-! ### The descriptor -/

/-- `adf_fd`: closed (`-1`), the pseudo-descriptor `AD_SYMLINK`, or an open file. -/
inductive Fd where
  | closed
  | symlink
  | file
deriving DecidableEq, Repr

/-- `adf_lock_t`. -/
structure AdfLock where
  lock : Flock
  user : ℤ
  reach : ℤ
deriving DecidableEq, Repr

/-- First byte of an entry. -/
def AdfLock.start (e : AdfLock) : ℤ := e.lock.lStart

/-- Last byte of an entry. -/
def AdfLock.last (e : AdfLock) : ℤ := adfLockLast e.lock.lStart e.lock.lLen

/-- `struct ad_fd`, and the kernel's locks of this process on its file. -/
structure LockFile where
  fd : Fd
  /-- `adf_flags & O_RDWR` -/
  rdwr : Bool
  lock : List AdfLock
  lockmax : ℕ
  held : LockMap
  clock : ℕ

/-- Answers to the system calls. -/
structure Env where
  refuses : ℕ → Flock → Bool
  allocFails : ℕ → Bool

/-- The kernel grants every `F_UNLCK` request. -/
def Env.Unlocks (env : Env) : Prop := ∀ n r, r.lType = .unlck → env.refuses n r = false

variable (env : Env)

/-- `set_lock` with `F_SETLK`; true on success. -/
def setLock (r : Flock) (f : LockFile) : Bool × LockFile :=
  match f.fd with
  | .symlink => (true, f)
  | .closed => (false, f)
  | .file =>
    if env.refuses f.clock r then (false, { f with clock := f.clock + 1 })
    else (true, { f with
      held := f.held.set r.lStart (adfLockLast r.lStart r.lLen) r.lType.held
      clock := f.clock + 1 })

/-! ### The lock array -/

/-- The key `adf_lock_lower` searches: the entry's reach or its start. -/
def AdfLock.key (e : AdfLock) (byReach : Bool) : ℤ := if byReach then e.reach else e.start

/-- `adf_lock_lower`: first index whose entry starts (or, with `byReach`, reaches) at or past
the target. -/
def adfLockLower (arr : List AdfLock) (target : ℤ) (byReach : Bool) : ℕ :=
  lowerBound (fun i => (arr[i]?).any fun e => e.key byReach < target) arr.length

/-- `adf_lock_window`: the indexes `lo..hi` that can overlap the range. -/
def adfLockWindow (arr : List AdfLock) (off len : ℤ) : ℕ × ℕ :=
  let last := adfLockLast off len
  (adfLockLower arr off true,
    if last < lockTop then adfLockLower arr (last + 1) false else arr.length)

/-- The loop of `adf_lock_reach`, with the reach of the entries before. -/
def reachLoop : ℤ → List AdfLock → List AdfLock
  | _, [] => []
  | reach, e :: es =>
    let reach := if e.last > reach then e.last else reach
    { e with reach := reach } :: reachLoop reach es

/-- The reach of the entry before index `i`, `-1` before the first one. -/
def reachBefore (arr : List AdfLock) : ℕ → ℤ
  | 0 => -1
  | j + 1 => (arr[j]?).elim (-1) AdfLock.reach

/-- `adf_lock_reach`: recompute the reach of the entries from index `i` to the end. -/
def adfLockReach (arr : List AdfLock) (i : ℕ) : List AdfLock :=
  arr.take i ++ reachLoop (reachBefore arr i) (arr.drop i)

/-- The entry's type is in the mask of the `ADLOCK_RD` and `ADLOCK_WR` bits. -/
def AdfLock.inMask (e : AdfLock) (rd wr : Bool) : Bool :=
  (rd && e.lock.lType = .rdlck) || (wr && e.lock.lType = .wrlck)

/-- The scan of `adf_findlock` and `adf_findxlock` over the window's indexes. -/
def findWindow (arr : List AdfLock) (off len : ℤ) (p : AdfLock → Bool) : Option ℕ :=
  let w := adfLockWindow arr off len
  (List.range' w.1 (w.2 - w.1)).find? fun i =>
    (arr[i]?).any fun e => p e && overlap off len e.lock.lStart e.lock.lLen

/-- `adf_findlock`: first entry of the fork that overlaps the range. -/
def adfFindlock (arr : List AdfLock) (fork : ℤ) (rd wr : Bool) (off len : ℤ) : Option ℕ :=
  findWindow arr off len fun e => e.inMask rd wr && e.user = fork

/-- `adf_findxlock`: first entry of any other fork that overlaps the range. -/
def adfFindxlock (arr : List AdfLock) (fork : ℤ) (rd wr : Bool) (off len : ℤ) : Option ℕ :=
  findWindow arr off len fun e => e.inMask rd wr && e.user ≠ fork

/-! ### The gap walk -/

/-- One stretch of the walk: the bytes `done + 1..stop`, when there are any. -/
def gapStretch (r : Flock) (done stop : ℤ) (f : LockFile) : Bool × LockFile :=
  if stop > done then
    -- a length of 0 runs to the end of the file
    setLock env ⟨r.lType, done + 1, if stop < lockTop then stop - done else 0⟩ f
  else (true, f)

/-- The loop of `adf_lock_gaps` over the window's entries; `done` is the last byte covered or
dealt with, `undo` what a refused take does with the stretches before it. -/
def gapsLoop (r : Flock) (last : ℤ) (undo : ℤ → LockFile → LockFile) :
    List AdfLock → ℤ → Bool → LockFile → Bool × LockFile
  | [], done, ret, f =>
    if done < last then
      -- past the window's last entry the stretch runs to the range's end
      match gapStretch env r done last f with
      | (true, f) => (ret, f)
      | (false, f) => if r.lType ≠ .unlck then (false, undo done f) else (false, f)
    else (ret, f)
  | e :: es, done, ret, f =>
    if done < last then
      let next := if e.reach > done then e.reach else done
      match gapStretch env r done (e.start - 1) f with
      | (true, f) => gapsLoop r last undo es next ret f
      | (false, f) =>
        if r.lType ≠ .unlck then (false, undo done f)
        else gapsLoop r last undo es next false f
    else (ret, f)

/-- The body of `adf_lock_gaps`, with what a refused take undoes. -/
def walkGaps (undo : ℤ → LockFile → LockFile) (r : Flock) (f : LockFile) : Bool × LockFile :=
  let w := adfLockWindow f.lock r.lStart r.lLen
  if w.1 ≤ w.2 then
    gapsLoop env r (adfLockLast r.lStart r.lLen) undo ((f.lock.drop w.1).take (w.2 - w.1))
      (r.lStart - 1) true f
  else (true, f)

/-- `adf_lock_gaps`: apply a lock operation to the bytes of a range no entry covers.  The
release of the stretches already taken is a call of the function itself; it never refuses a
take, so the recursion ends there. -/
def adfLockGaps (r : Flock) (f : LockFile) : Bool × LockFile :=
  walkGaps env (fun done f =>
    if done ≥ r.lStart then
      (walkGaps env (fun _ f => f) ⟨.unlck, r.lStart, done - r.lStart + 1⟩ f).2
    else f) r f

/-! ### Releases -/

/-- `ARRAY_BLOCK_SIZE`. -/
def arrayBlockSize : ℕ := 10
/-- `ARRAY_FREE_DELTA`. -/
def arrayFreeDelta : ℕ := 100

/-- The shrinking of the array at the end of `adf_freelock`. -/
def shrinkArray (f : LockFile) : LockFile :=
  if f.lockmax > arrayFreeDelta ∧ f.lock.length + arrayFreeDelta < f.lockmax then
    if env.allocFails f.clock then { f with clock := f.clock + 1 }
    else { f with lockmax := f.lock.length + arrayFreeDelta, clock := f.clock + 1 }
  else f

/-- `adf_freelock`: drop entry `i` and release the bytes no surviving entry holds. -/
def adfFreelock (i : ℕ) (f : LockFile) : LockFile :=
  match f.lock[i]? with
  | none => f
  | some e =>
    let f := { f with lock := adfLockReach (f.lock.eraseIdx i) i }
    shrinkArray env (adfLockGaps env ⟨.unlck, e.lock.lStart, e.lock.lLen⟩ f).2

/-- The loop of `adf_unlock`, from index `i - 1` down. -/
def adfUnlockLoop (fork : ℤ) : ℕ → LockFile → LockFile
  | 0, f => f
  | i + 1, f =>
    adfUnlockLoop fork i (match f.lock[i]? with
      | none => f
      | some e => if e.user = fork then adfFreelock env i f else f)

/-- `adf_unlock`: release every lock of the fork. -/
def adfUnlock (fork : ℤ) (f : LockFile) : LockFile := adfUnlockLoop env fork f.lock.length f

/-- The loop of `adf_lock_free`: the top entry goes first. -/
def adfLockFreeLoop : ℕ → LockFile → LockFile
  | 0, f => f
  | i + 1, f => adfLockFreeLoop i (adfFreelock env i f)

/-- `adf_lock_free`: release every lock of the descriptor and free the array. -/
def adfLockFree (f : LockFile) : LockFile :=
  if f.lockmax = 0 then f
  else
    let f := if f.fd = .file then adfLockFreeLoop env f.lock.length f else f
    { f with lock := [], lockmax := 0 }

/-! ### Taking locks -/

/-- `errno` of a failed call; `fcntl` stands for whatever the kernel answered. -/
inductive Errno where
  | einval
  | eacces
  | eoverflow
  | enomem
  | fcntl
deriving DecidableEq, Repr

/-- Return of a lock call; `AFP_PANIC` does not return. -/
inductive Ret where
  | ok
  | err (e : Errno)
  | panic
deriving DecidableEq, Repr

/-- The mode on a descriptor: a write lock on a read-only one degrades to a read lock. -/
def LockFile.degrade (f : LockFile) (m : LockMode) : LockMode :=
  if f.rdwr = false ∧ m = .wr then .rd else m

/-- The insertion of a taken lock into the array, in order of start. -/
def insertLock (lock : Flock) (fork : ℤ) (f : LockFile) : LockFile :=
  let i := adfLockLower f.lock lock.lStart false
  { f with lock := adfLockReach (f.lock.insertIdx i ⟨lock, fork, 0⟩) i }

/-- The end of `ad_lock` for a lock the kernel granted and no entry records: grow the array
when it is full, and release the lock again when it cannot grow. -/
def recordLock (lock : Flock) (fork : ℤ) (f : LockFile) : Ret × LockFile :=
  if f.lockmax = f.lock.length then
    if env.allocFails f.clock then
      let f := { f with clock := f.clock + 1 }
      (.err .enomem, (adfLockGaps env { lock with lType := .unlck } f).2)
    else
      let f := { f with lockmax := f.lockmax + arrayBlockSize, clock := f.clock + 1 }
      (.ok, insertLock lock fork f)
  else (.ok, insertLock lock fork f)

/-- `ad_lock` past its range checks, with the request as it goes to the kernel. -/
def adLockChecked (t : Locktype) (mode : LockMode) (lock : Flock) (fork : ℤ) (f : LockFile) :
    Ret × LockFile :=
  if lock.lType ≠ .unlck ∧
      (adfFindxlock f.lock fork (mode = .wr) true lock.lStart lock.lLen).isSome then
    (.err .eacces, f)
  else
    match adfFindlock f.lock fork true true lock.lStart lock.lLen with
    | none =>
      if lock.lType = .unlck then (.err .einval, f)
      else
        match setLock env lock f with
        | (false, f) => (.err .fcntl, f)
        | (true, f) => recordLock env lock fork f
    | some i =>
      match f.lock[i]? with
      | none => (.err .einval, f)
      | some e =>
        if e.lock.lStart ≠ lock.lStart ∨ e.lock.lLen ≠ lock.lLen ∨
            (t.upgrade = false ∧ lock.lType ≠ .unlck) then (.err .einval, f)
        else if lock.lType = .unlck then (.ok, adfFreelock env i f)
        else
          match setLock env lock f with
          | (false, f) => (.err .fcntl, f)
          -- an upgrade changes the entry's type over the same range
          | (true, f) => (.ok, { f with lock := f.lock.set i { e with lock := lock } })

/-- `ad_lock` on the descriptor it selects, with the entry offset `shift`. -/
def adLockFd (t : Locktype) (shift off len fork : ℤ) (f : LockFile) : Ret × LockFile :=
  -- the start must leave room for the entry offset
  if off < 0 ∨ off > lockTop - shift then (.err .einval, f)
  else
    let mode := f.degrade t.mode
    let start := off + shift
    let lock : Flock :=
      ⟨xlateFcntlLock mode, start, if len = bytelockMax then len - start else len⟩
    if lock.lLen ≤ 0 then (.err .einval, f)
    else if adfLockFits lock.lStart lock.lLen = false then
      (.err (if lock.lType = .unlck then .einval else .eoverflow), f)
    else adLockChecked env t mode lock fork f

/-- `ad_tmplock` on the descriptor it selects, with the entry offset `shift`. -/
def adTmplockFd (t : Locktype) (shift off len fork : ℤ) (f : LockFile) : Ret × LockFile :=
  if off < 0 ∨ off > lockTop - shift ∨ len < 0 then (.err .einval, f)
  else
    let mode := f.degrade t.mode
    let lock : Flock := ⟨xlateFcntlLock mode, off + shift, len⟩
    if len > 0 ∧ adfLockFits lock.lStart len = false then (.err .eoverflow, f)
    else if fork ≠ 0 ∧ lock.lType ≠ .unlck ∧
        (adfFindxlock f.lock fork (mode = .wr) true lock.lStart lock.lLen).isSome then
      (.err .eacces, f)
    else
      match adfLockGaps env lock f with
      | (true, f) => (.ok, f)
      | (false, f) => (.err .fcntl, f)

/-! ### The calls -/

/-- `ADEID_DFORK` and `ADEID_RFORK`. -/
inductive Eid where
  | dfork
  | rfork
deriving DecidableEq, Repr

/-- `struct adouble`, as far as the lock calls read it. -/
structure Adouble where
  dataFork : LockFile
  rfp : LockFile
  /-- `ad_getentryoff(ad, ADEID_RFORK)` -/
  rforkOff : ℤ
  rforkOff_nonneg : 0 ≤ rforkOff
  rforkOff_le : rforkOff ≤ lockTop

namespace Adouble

/-- The descriptor of a fork. -/
def adf (ad : Adouble) : Eid → LockFile
  | .dfork => ad.dataFork
  | .rfork => ad.rfp

/-- The handle with another descriptor for a fork. -/
def setAdf (ad : Adouble) (eid : Eid) (f : LockFile) : Adouble :=
  match eid with
  | .dfork => { ad with dataFork := f }
  | .rfork => { ad with rfp := f }

/-- A lock call on the descriptor of a fork. -/
def onAdf (ad : Adouble) (eid : Eid) (g : LockFile → Ret × LockFile) : Ret × Adouble :=
  let (ret, f) := g (ad.adf eid)
  (ret, ad.setAdf eid f)

end Adouble

-- the answers to the system calls on the files of the two forks
variable (kernel : Eid → Env)

/-- `ad_lock`. -/
def adLock (eid : Eid) (t : Locktype) (off len fork : ℤ) (ad : Adouble) : Ret × Adouble :=
  if t.filelock = true ∧ len ≠ 1 then (.panic, ad)
  else
    match eid, t.filelock with
    | .dfork, _ => ad.onAdf .dfork (adLockFd (kernel .dfork) t 0 off len fork)
    | .rfork, true => ad.onAdf .dfork (adLockFd (kernel .dfork) t 0 (rf2off off) len fork)
    | .rfork, false => ad.onAdf .rfork (adLockFd (kernel .rfork) t ad.rforkOff off len fork)

/-- `ad_tmplock`. -/
def adTmplock (eid : Eid) (t : Locktype) (off len fork : ℤ) (ad : Adouble) : Ret × Adouble :=
  match eid with
  | .dfork => ad.onAdf .dfork (adTmplockFd (kernel .dfork) t 0 off len fork)
  | .rfork =>
    if ad.rfp.fd = .closed then (.ok, ad)
    else
      ad.onAdf .rfork (adTmplockFd (kernel .rfork) t (if t.filelock then 0 else ad.rforkOff)
        off len fork)

/-- `ad_unlock`. -/
def adUnlock (fork : ℤ) (ad : Adouble) : Adouble :=
  let ad := if ad.dataFork.fd ≠ .closed then
      ad.setAdf .dfork (adfUnlock (kernel .dfork) fork ad.dataFork) else ad
  if ad.rfp.fd ≠ .closed then ad.setAdf .rfork (adfUnlock (kernel .rfork) fork ad.rfp) else ad

/-- A call on the handle of an open file. -/
inductive Call where
  | lock (eid : Eid) (t : Locktype) (off len fork : ℤ)
  | tmplock (eid : Eid) (t : Locktype) (off len fork : ℤ)
  | unlock (fork : ℤ)
  | lockFree (eid : Eid)
deriving DecidableEq, Repr

/-- The call, with its return. -/
def call : Call → Adouble → Ret × Adouble
  | .lock eid t off len fork, ad => adLock kernel eid t off len fork ad
  | .tmplock eid t off len fork, ad => adTmplock kernel eid t off len fork ad
  | .unlock fork, ad => (.ok, adUnlock kernel fork ad)
  | .lockFree eid, ad => (.ok, ad.setAdf eid (adfLockFree (kernel eid) (ad.adf eid)))

/-- A sequence of calls; none when one of them panics. -/
def run : List Call → Adouble → Option Adouble
  | [], ad => some ad
  | c :: cs, ad =>
    match call kernel c ad with
    | (.panic, _) => none
    | (.ok, ad') => run cs ad'
    | (.err _, ad') => run cs ad'

end Netatalk.AdLock
