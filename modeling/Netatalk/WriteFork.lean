import Netatalk.ByteLock
import Netatalk.DsiStream

/-! # Requests with a payload

A DSIWrite frame carries a request block and a payload.  `dsi_stream_receive` reads the block; the
payload is left to whoever serves the request.  This is the model of all who do: `write_fork` of
`etc/afpd/fork.c` with `dsi_write_file` of `libatalk/dsi/dsi_write.c` below it, `afp_addicon` of
`etc/afpd/desktop.c`, `afp_errpwdexpired` of `etc/afpd/auth.c`, and the main loop of
`etc/afpd/afp_dsi.c`, which drains the payloads nobody else reads.

* **The input** is that of `DsiStream`: one list of kernel answers serves all reads of a request,
  and a call that runs out of them waits in the kernel.
* **The environment.**  `WriteEnv` and `IconEnv` hold what the calls below the handlers answer: the
  tables of open forks and volumes, the locks, the files.  A request writes at growing offsets, so
  that what `ad_write` answers is a function of the offset.
* **The request block** is read through `ibuf`, the command buffer: the block, and behind it
  whatever earlier requests have left there.
* **Left out** is what the handlers do to the open fork after the payload (modification dates, the
  volume's size limit), and log lines. -/

namespace Netatalk.WriteFrames

open List DsiStream
open Bytes (beNat)
open AdLock (getOffT setOffT endbit)

/-! ### Forks and files -/

/-- The AFP errors of the modelled handlers. -/
inductive AfpErr where
  | access | dfull | lock | misc | param | noop | pwdexpr | itype
deriving DecidableEq

/-- The errors `fork_error` tells apart: `EDQUOT`, `EFBIG` and `ENOSPC`; `EACCES`, `EROFS` and
`EPERM`; all others. -/
inductive FileErrno where
  | full | denied | other
deriving DecidableEq

/-- `fork_error` for an FPWrite. -/
def forkError : FileErrno → AfpErr
  | .full => .dfull
  | .denied => .access
  | .other => .misc

inductive Eid where
  | dfork | rfork
deriving DecidableEq

/-- What `write_fork` uses of an open fork, of its adouble and of its volume. -/
structure Ofork where
  isVirtual : Bool
  accwr : Bool
  data : Bool
  rsrc : Bool
  limitsize : Bool
  adSize : Eid → ℤ
  adGetentryoff : Eid → ℤ
  symlink : Bool
  nosplice : Bool

/-- What `splice` from the socket comes back with: at most so many bytes (none is end of file),
`EINTR`, `EAGAIN`, an error that says that the socket cannot be spliced, or another one. -/
inductive Splice where
  | data (k : ℕ) | intr | again | refuses (e : FileErrno) | fails (e : FileErrno)
deriving DecidableEq

/-- What one call comes back with that moves bytes from the pipe into the file: so many bytes,
`EINVAL`, `EINTR` or another error. -/
inductive Move where
  | bytes (n : ℕ) | invalid | intr | fails (e : FileErrno)
deriving DecidableEq

/-- The answers of one round of `dsi_write_file`.  What `moves` does not say is moved at once. -/
structure Round where
  splice : Splice
  atMark : Bool
  wait : Wait
  moves : List Move
deriving DecidableEq

structure WriteEnv where
  ofFind : ℕ → Option Ofork
  materializeVirtualIcon : Ofork → Except AfpErr Ofork
  strictLocking : Bool
  adTmplock : Eid → ℤ → ℤ → Bool
  adWrite : Eid → ℤ → List UInt8 → Except FileErrno ℕ
  recvfile : Bool
  spliceSize : ℕ
  openPipe : Bool
  rounds : List Round
  /-- The `errno` a wait leaves that has disconnected the session. -/
  waitErrno : FileErrno

/-- `write_file` for at most `left` bytes: a short write is repeated. -/
def writeFileLoop (e : WriteEnv) (eid : Eid) : ℕ → ℤ → List UInt8 → Except AfpErr ℤ
  | 0, offset, _ => .ok offset
  | left + 1, offset, rbuf =>
    if rbuf = [] then .ok offset
    else
      match e.adWrite eid offset rbuf with
      | .error errno => .error (forkError errno)
      | .ok 0 => .error .misc
      | .ok cc => writeFileLoop e eid left (offset + min cc rbuf.length) (rbuf.drop cc)

/-- `write_file`: all bytes of `rbuf` at `offset`; it returns the offset behind them. -/
def writeFile (e : WriteEnv) (eid : Eid) (offset : ℤ) (rbuf : List UInt8) : Except AfpErr ℤ :=
  writeFileLoop e eid rbuf.length offset rbuf

variable {d : Dsi} {offset : ℤ} {rounds rounds' : ℕ} {script : List Answer}

/-- As many rounds as bytes are enough: more of them change nothing. -/
theorem writeFileLoop_left (e : WriteEnv) (eid : Eid) {left left' : ℕ}
    {rbuf : List UInt8} (h : rbuf.length ≤ left) (h' : rbuf.length ≤ left') :
    writeFileLoop e eid left offset rbuf = writeFileLoop e eid left' offset rbuf := by
  induction left generalizing left' offset rbuf with
  | zero =>
    obtain rfl := length_eq_zero_iff.mp (Nat.le_zero.mp h)
    cases left' <;> rfl
  | succ left ih =>
    cases left' with
    | zero =>
      obtain rfl := length_eq_zero_iff.mp (Nat.le_zero.mp h')
      rfl
    | succ left' =>
      rw [writeFileLoop, writeFileLoop]
      split_ifs with hnil
      · rfl
      · split
        · rfl
        · rfl
        · rename_i cc hcc _
          have hcc : cc ≠ 0 := fun hz => hcc (by rw [hz])
          exact ih (by rw [length_drop]; omega) (by rw [length_drop]; omega)

/-! ### The payload of a write -/

/-- The inner loop of `dsi_write_file`, which moves a round from the pipe into the file.  It returns
whether the file has refused `splice`, so that the round was copied. -/
def emptyPipe : List Move → Bool → ℕ → Except FileErrno Bool
  | moves, copy, toWrite =>
    if toWrite = 0 then .ok copy
    else
      match moves with
      | [] => .ok copy
      | .bytes n :: moves => if n = 0 then .error .other else emptyPipe moves copy (toWrite - n)
      | .invalid :: moves => if copy then .error .other else emptyPipe moves true toWrite
      | .intr :: moves => emptyPipe moves copy toWrite
      | .fails e :: _ => .error e

/-- The loop of `dsi_write_file`.  It takes from the socket, not from the read-ahead buffer. -/
def dsiWriteFileLoop (spliceSize : ℕ) :
    List Round → ℕ → ℤ → Dsi → List Answer → Out (Except FileErrno ℤ)
  | rounds, written, offset, d, script =>
    if 0 < d.datasize then
      match rounds with
      | [] => .waits d
      | r :: rounds =>
        -- the socket of a disconnected session is no descriptor
        match if d.socket < 0 then .refuses .other else r.splice with
        | .intr => dsiWriteFileLoop spliceSize rounds written offset d script
        | .again =>
          if r.atMark then .ret (.ok offset) d script
          else
            match dsiWaitInput d r.wait with
            | (.ok _, d) => dsiWriteFileLoop spliceSize rounds written offset d script
            | (.error _, d) => .ret (.error .other) d script
        | .refuses e =>
          .ret (if written = 0 then .ok offset else .error e) d script
        | .fails e => .ret (.error e) d script
        | .data k =>
          let nread := min k (min d.datasize spliceSize)
          let bs := d.net.take nread
          if bs = [] then .ret (if r.atMark then .ok offset else .error .other) d script
          else
            let d := { d with net := d.net.drop nread, datasize := d.datasize - bs.length }
            (Out.mk bs (some ()) d script).andThen fun _ d script =>
              match emptyPipe r.moves false bs.length with
              | .error e => .ret (.error e) d script
              | .ok true => .ret (.ok (offset + bs.length)) d script
              | .ok false =>
                dsiWriteFileLoop spliceSize rounds (written + bs.length)
                  (offset + bs.length) d script
    else .ret (.ok offset) d script

/-- `dsi_write_file`: payload straight from the socket into the file.  What it leaves is still
counted in `datasize`. -/
def dsiWriteFile (e : WriteEnv) (offset : ℤ) (d : Dsi) (script : List Answer) :
    Out (Except FileErrno ℤ) :=
  if d.datasize = 0 ∨ e.spliceSize = 0 then .ret (.ok offset) d script
  else if ! e.openPipe then .ret (.ok offset) d script
  else dsiWriteFileLoop e.spliceSize e.rounds 0 offset d script

/-- `ad_recvfile`, under `OPTION_RECVFILE`. -/
def adRecvfile (e : WriteEnv) (ofork : Ofork) (offset : ℤ) (d : Dsi) (script : List Answer) :
    Out (Except FileErrno ℤ) :=
  if ! e.recvfile then .ret (.ok offset) d script
  else if ofork.symlink || ofork.nosplice then .ret (.ok offset) d script
  else dsiWriteFile e offset d script

/-- The loop over `dsi_write` in `write_fork`, for at most so many rounds. -/
def writeRestLoop (e : WriteEnv) (eid : Eid) :
    ℕ → ℤ → Dsi → List Answer → Out (Except AfpErr ℤ)
  | 0, offset, d, script => .ret (.ok offset) d script
  | rounds + 1, offset, d, script =>
    let chunk := dsiWrite d d.serverQuantum script
    chunk.andThen fun len d script =>
      if 0 < len then
        match writeFile e eid offset chunk.data with
        | .error err => .ret (.error err) d script
        | .ok offset => writeRestLoop e eid rounds offset d script
      else .ret (.ok offset) d script

/-- The loop over `dsi_write`: every round but the last takes a byte off `datasize`. -/
def writeRest (e : WriteEnv) (eid : Eid) (offset : ℤ) (d : Dsi) (script : List Answer) :
    Out (Except AfpErr ℤ) :=
  writeRestLoop e eid (d.datasize + 1) offset d script

/-- A `dsi_write` that returns a count has taken it off `datasize`. -/
theorem datasize_dsiWrite {buflen n : ℕ} (hv : d.window.Valid)
    (h : (dsiWrite d buflen script).result = some n) :
    n + (dsiWrite d buflen script).dsi.datasize = d.datasize := by
  unfold dsiWrite at h ⊢
  dsimp only at h ⊢
  split_ifs at h ⊢ with hpos
  · have hreads := reads_dsiStreamRead (min buflen d.datasize) script hv
    have hcount := fun m => @length_dsiStreamRead (min buflen d.datasize) m script d
    unfold Out.andThen at h ⊢
    split at h
    · cases h
    · rename_i hm
      cases h
      have hle : n ≤ d.datasize := by
        rcases hcount n hm with rfl | ⟨rfl, _⟩
        · exact zero_le
        · exact Nat.min_le_right _ _
      simp only [Out.ret, hreads.datasize]
      omega
  · cases h
    exact Nat.zero_add _

/-- A round more than `datasize` is enough. -/
theorem writeRestLoop_rounds (e : WriteEnv) (eid : Eid) (hv : d.window.Valid)
    (h : d.datasize < rounds)
    (h' : d.datasize < rounds') :
    writeRestLoop e eid rounds offset d script = writeRestLoop e eid rounds' offset d script := by
  induction rounds generalizing rounds' offset d script with
  | zero => omega
  | succ rounds ih =>
    cases rounds' with
    | zero => omega
    | succ rounds' =>
      have htakes := takes_dsiWrite d.serverQuantum script hv
      rw [writeRestLoop, writeRestLoop]
      apply Out.andThen_congr
      intro len hlen
      have hsize := datasize_dsiWrite hv hlen
      split_ifs
      · split
        · rfl
        · exact ih htakes.valid (by omega) (by omega)
      · rfl

/-- What follows the loop: a payload that has not come to its end is an error. -/
def writeEnd (e : WriteEnv) (r : Except AfpErr ℤ) (d : Dsi) : Except AfpErr ℤ :=
  match r with
  | .error err => .error err
  | .ok offset =>
    if 0 < d.datasize then
      .error (forkError (if d.disconnected then e.waitErrno else .other))
    else .ok offset

/-- The payload of an FPWrite into the fork: the bytes the read-ahead buffer holds, what
`ad_recvfile` takes, and the rest in chunks. -/
def writePayload (e : WriteEnv) (ofork : Ofork) (eid : Eid) (offset reqcount : ℤ) (d : Dsi)
    (script : List Answer) : Out (Except AfpErr ℤ) :=
  let first := dsiWriteinit d script
  first.andThen fun len d script =>
    if reqcount < len + d.datasize then .ret (.error .param) d script
    else
      match writeFile e eid offset first.data with
      | .error err => .ret (.error err) d script
      | .ok offset =>
        (adRecvfile e ofork offset d script).andThen fun r d script =>
          match r with
          | .error errno => .ret (.error (forkError errno)) d script
          | .ok offset =>
            (writeRest e eid offset d script).andThen fun r d script =>
              .ret (writeEnd e r d) d script

/-! ### FPWrite and FPWriteExt -/

/-- `sum_neg`. -/
def sumNeg (is64 : Bool) (offset reqcount base : ℤ) : Bool :=
  (if is64 then 2 ^ 63 - 1 - base else 2 ^ 31 - 1) - offset < reqcount

/-- The fork, its entry, the offset and the count of a write that may begin. -/
structure WriteStart where
  ofork : Ofork
  eid : Eid
  offset : ℤ
  reqcount : ℤ

/-- The checks `write_fork` makes before it reads the payload.  An error is what it replies once the
payload is drained, which for a count of 0 is the offset. -/
def writeChecks (e : WriteEnv) (ibuf : ℕ → UInt8) (ibuflen : ℕ) (is64 : Bool) :
    Except (Except AfpErr ℤ) WriteStart := do
  let offset := getOffT ibuf 4 is64
  let reqcount := getOffT ibuf (if is64 then 12 else 8) is64
  if ibuflen < (if is64 then dsiWroffFpwriteext else dsiWroffFpwrite) then
    throw (.error .param)
  let some ofork := e.ofFind (beNat [ibuf 2, ibuf 3]) | throw (.error .param)
  if ofork.isVirtual && ! ofork.accwr then
    throw (.error .access)
  let ofork ←
    if ofork.isVirtual then (e.materializeVirtualIcon ofork).mapError .error else pure ofork
  if ! ofork.accwr then
    throw (.error .access)
  let eid ←
    if ofork.data then pure Eid.dfork
    else if ofork.rsrc then pure Eid.rfork
    else throw (.error .access)
  let oldsize := if endbit ibuf || ofork.limitsize then ofork.adSize eid else 0
  if endbit ibuf && 2 ^ 63 - 1 - oldsize < offset then
    throw (.error .param)
  let offset := if endbit ibuf then offset + oldsize else offset
  if reqcount < 0 || offset < 0 then
    throw (.error .param)
  if sumNeg is64 offset reqcount (if eid = .dfork then 0 else ofork.adGetentryoff eid) then
    throw (.error .dfull)
  if reqcount = 0 then
    throw (.ok offset)
  if e.strictLocking && ! e.adTmplock eid offset reqcount then
    throw (.error .lock)
  return ⟨ofork, eid, offset, reqcount⟩

/-- `write_fork`: the offset behind the last byte written, or an error. -/
def writeFork (e : WriteEnv) (ibuf : ℕ → UInt8) (ibuflen : ℕ) (is64 : Bool) (d : Dsi)
    (script : List Answer) : Out (Except AfpErr ℤ) :=
  match writeChecks e ibuf ibuflen is64 with
  | .error r => (dsiWritedrain d script).andThen fun _ d script => .ret r d script
  | .ok w =>
    (writePayload e w.ofork w.eid w.offset w.reqcount d script).andThen fun r d script =>
      match r with
      | .ok offset => .ret (.ok offset) d script
      | .error err =>
        (dsiWriteflush d script).andThen fun _ d script => .ret (.error err) d script

/-! ### FPAddIcon -/

structure IconEnv where
  getvolbyvid : ℕ → Bool
  /-- The reply once the whole icon has been received: to open, lock, read and write the icon file
  may fail. -/
  store : (ℕ → UInt8) → List UInt8 → Option AfpErr

/-- The loop of `afp_addicon` that receives the rest of the bitmap, for at most so many rounds. -/
def iconBytes (bsize : ℕ) : ℕ → ℕ → Dsi → List Answer → Out ℕ
  | 0, got, d, script => .ret got d script
  | rounds + 1, got, d, script =>
    if got < bsize then
      (dsiWrite d (bsize - got) script).andThen fun wlen d script =>
        if 0 < wlen then iconBytes bsize rounds (got + wlen) d script else .ret got d script
    else .ret got d script

/-- As many rounds as bytes are missing are enough. -/
theorem iconBytes_rounds {bsize got : ℕ} (h : bsize - got ≤ rounds) (h' : bsize - got ≤ rounds') :
    iconBytes bsize rounds got d script = iconBytes bsize rounds' got d script := by
  induction rounds generalizing rounds' got d script with
  | zero =>
    cases rounds' with
    | zero => rfl
    | succ rounds' => rw [iconBytes, iconBytes, if_neg (by omega)]
  | succ rounds ih =>
    cases rounds' with
    | zero => rw [iconBytes, iconBytes, if_neg (by omega)]
    | succ rounds' =>
      rw [iconBytes, iconBytes]
      split_ifs
      · apply Out.andThen_congr
        intro wlen _
        split_ifs
        · exact ih (by omega) (by omega)
        · rfl
      · rfl

/-- `afp_addicon`. -/
def afpAddicon (e : IconEnv) (ibuf : ℕ → UInt8) (d : Dsi) (script : List Answer) :
    Out (Option AfpErr) :=
  if ! e.getvolbyvid (beNat [ibuf 2, ibuf 3]) then
    (dsiWritedrain d script).andThen fun _ d script => .ret (some .param) d script
  else
    let bsize := beNat [ibuf 18, ibuf 19]
    let first := dsiWriteinit d script
    first.andThen fun got d script =>
      if got + d.datasize ≠ bsize then
        (dsiWriteflush d script).andThen fun _ d script => .ret (some .param) d script
      else
        let rest := iconBytes bsize (bsize - got) got d script
        rest.andThen fun got d script =>
          .ret (if got < bsize then some .param else e.store ibuf (first.data ++ rest.data)) d
            script

/-! ### The command tables -/

def afpWrite : UInt8 := 33
def afpWriteExt : UInt8 := 61
def afpAddiconCode : UInt8 := 192

/-- `afp_write_command`. -/
def afpWriteCommand (function : UInt8) : Bool :=
  function = afpWrite || function = afpWriteExt || function = afpAddiconCode

/-- The entries of `afp_switch` other than `NULL`; `command` is any that takes no payload. -/
inductive Handler where
  | write | writeExt | addicon | errpwdexpired | command
deriving DecidableEq

/-- Which table `afp_switch` is: that of a session nobody has logged in to, the one of an expired
password, or that of a login with an AFP version. -/
inductive Login where
  | preauth | expired | postauth (version : ℕ)
deriving DecidableEq

/-- The optional commands of a build. -/
structure Build where
  haveAcls : Bool
  withSpotlight : Bool
deriving DecidableEq

/-- The commands without payload of a login: those of `postauth_switch` and what
`set_auth_switch` adds for the version. -/
def postauthCommand (b : Build) (version : ℕ) (function : UInt8) : Bool :=
  (1 ≤ function && function ≤ 58) || function = 78 || function = 79 ||
  (22 ≤ version && function = 122) ||
  (30 ≤ version && ([59, 60, 64, 65, 66, 67] : List UInt8).contains function) ||
  (31 ≤ version && (function = 68 || (b.withSpotlight && function = 76))) ||
  (32 ≤ version && ((69 ≤ function && function ≤ 72) ||
    (b.haveAcls && 73 ≤ function && function ≤ 75)))

/-- `afp_switch`. -/
def afpSwitch (b : Build) (login : Login) (function : UInt8) : Option Handler :=
  match login with
  | .preauth =>
    if ([18, 19, 20, 63] : List UInt8).contains function then some .command else none
  | .expired =>
    if ([20, 36] : List UInt8).contains function then some .command else some .errpwdexpired
  | .postauth version =>
    if function = afpWrite then some .write
    else if function = afpWriteExt then if 30 ≤ version then some .writeExt else none
    else if function = afpAddiconCode then some .addicon
    else if postauthCommand b version function then some .command
    else none

/-- `afp_errpwdexpired`: a payload is read off before the reply. -/
def afpErrpwdexpired (d : Dsi) (script : List Answer) : Out AfpErr :=
  (dsiWritedrain d script).andThen fun _ d script => .ret .pwdexpr d script

/-! ### The main loop -/

def dsifuncClose : UInt8 := 1

/-- An AFP reply: the error, or none, and the reply block. -/
structure Reply where
  err : Option AfpErr
  data : List UInt8
deriving DecidableEq

/-- What an FPWrite replies. -/
def writeReply (is64 : Bool) : Except AfpErr ℤ → Reply
  | .ok offset => ⟨none, setOffT offset is64⟩
  | .error err => ⟨some err, []⟩

/-- All that decides how one request is served besides the input and the session. -/
structure Request where
  build : Build
  login : Login
  /-- The answers to the reads of the request. -/
  answers : List Answer
  /-- What the command buffer holds behind the request block. -/
  stale : ℕ → UInt8
  write : WriteEnv
  icon : IconEnv
  /-- The reply a request finds in the replay cache. -/
  replayed : Option Reply
  /-- What a command without payload replies. -/
  command : List UInt8 → Reply
  /-- The answers to each wait for output while the reply and attentions are sent. -/
  sends : List (List Answer)

/-- What the main loop makes of a frame: the session fails or closes, there is nothing to reply, or
a reply is sent. -/
inductive Event where
  | failed | closed | quiet | reply (r : Reply)
deriving DecidableEq

/-- The branch `DSIFUNC_CMD`: the handlers it runs read nothing. -/
def serveCommand (r : Request) (block : List UInt8) (function : UInt8) (d : Dsi)
    (script : List Answer) : Out Reply :=
  match r.replayed with
  | some reply => .ret reply d script
  | none =>
    match afpSwitch r.build r.login function with
    | none => .ret ⟨some .noop, []⟩ d script
    | some h =>
      if afpWriteCommand function then .ret ⟨some .param, []⟩ d script
      else if h = .errpwdexpired then
        (afpErrpwdexpired d script).andThen fun err d script => .ret ⟨some err, []⟩ d script
      else .ret (r.command block) d script

/-- The handler the branch `DSIFUNC_WRITE` runs. -/
def runHandler (r : Request) (block : List UInt8) (ibuf : ℕ → UInt8) (d : Dsi)
    (script : List Answer) : Handler → Out Reply
  | .write =>
    (writeFork r.write ibuf block.length false d script).andThen fun w d script =>
      .ret (writeReply false w) d script
  | .writeExt =>
    (writeFork r.write ibuf block.length true d script).andThen fun w d script =>
      .ret (writeReply true w) d script
  | .addicon =>
    (afpAddicon r.icon ibuf d script).andThen fun err d script => .ret ⟨err, []⟩ d script
  | .errpwdexpired =>
    (afpErrpwdexpired d script).andThen fun err d script => .ret ⟨some err, []⟩ d script
  | .command => .ret (r.command block) d script

/-- The branch `DSIFUNC_WRITE`, up to the reply. -/
def serveWrite (r : Request) (block : List UInt8) (ibuf : ℕ → UInt8) (d : Dsi)
    (script : List Answer) : Out Reply :=
  match afpSwitch r.build r.login (ibuf 0) with
  | some h =>
    if afpWriteCommand (ibuf 0) then runHandler r block ibuf d script h
    else (dsiWritedrain d script).andThen fun _ d script => .ret ⟨some .param, []⟩ d script
  | none => (dsiWritedrain d script).andThen fun _ d script => .ret ⟨some .noop, []⟩ d script

/-- What the main loop does with the frame `dsi_stream_receive` has returned. -/
def dispatch (r : Request) (block : List UInt8) (cmd : UInt8) (d : Dsi) (script : List Answer) :
    Out Event :=
  let ibuf := fun i => block.getD i (r.stale i)
  if cmd = 0 then .ret .failed d script
  else if cmd = dsifuncClose then .ret .closed d script
  else if cmd = dsifuncCmd then
    (serveCommand r block (ibuf 0) d script).andThen fun reply d script =>
      .ret (.reply reply) d script
  else if cmd = dsifuncWrite then
    (serveWrite r block ibuf d script).andThen fun reply d script =>
      -- there is no connection to reply on
      .ret (if d.disconnected then .quiet else .reply reply) d script
  else .ret .quiet d script

/-- The waits of a send, which read ahead. -/
def sendReply : List (List Answer) → Dsi → Out Bool
  | [], d => .ret true d []
  | script :: sends, d =>
    (dsiPeek script d).andThen fun r d _ => if r = 0 then sendReply sends d else .ret false d []

/-- A pass of the main loop: the session it starts with, the request block it hands on once that
has been received, and what has been read when the reply is due. -/
structure Served where
  start : Dsi
  block : Option (List UInt8)
  out : Out Event

def serveFrame (r : Request) (d : Dsi) : Served :=
  let frame := dsiStreamReceive d r.answers
  let block := frame.data.drop dsiBlocksiz
  ⟨d, frame.result.map fun _ => block, frame.andThen (dispatch r block)⟩

/-- Whether the main loop takes another request. -/
def Event.goesOn : Event → Bool
  | .failed | .closed => false
  | .quiet | .reply _ => true

/-- The main loop, as long as it does not wait in the kernel and its sends succeed. -/
def serve : List Request → Dsi → List Served
  | [], _ => []
  | r :: reqs, d =>
    let s := serveFrame r d
    s :: match s.out.result with
      | none => []
      | some ev =>
        if ev.goesOn then
          let sent := sendReply r.sends s.out.dsi
          match sent.result with
          | some true => serve reqs sent.dsi
          | _ => []
        else []

end Netatalk.WriteFrames
