import Netatalk.HintRelay

/-! # Reading cache hints

The model of `process_cache_hints` (`etc/afpd/dircache.c`), which a session runs after every
command.  One read appends to the bytes that the last call left in the buffer, and whole messages
are taken from its front: up to 32 that change something, or to a reset of an open volume, which
ends the session.  What is left moves to the front of the buffer.

* **The pipe.**  `pipe` are the bytes in the pipe that are not read.  An answer says how many of
  them a read gives at most, or that it fails.
* **The session.**  A `View` is what a hint meets when it is taken: the volumes, and for the entry
  of the hint whether it is cached, whether its `ostat` succeeds, and whether `dir_modify` leaves it
  the same object.
* **The hints.**  The payloads taken and what was done for them are returned in their order. -/

namespace Netatalk.Hint

open List Bytes

/-- `MAX_HINTS_PER_CYCLE`. -/
def maxHintsPerCycle : ℕ := 32

/-- `HINT_READ_BUF_SIZE`. -/
def hintReadBufSize : ℕ := maxHintsPerCycle * msgSize

/-- `CNID_START`. -/
def cnidStart : ℕ := 17

/-! ### Applying -/

/-- A volume: its id in network byte order, `AFPVOL_OPEN`, and its CNID tag. -/
structure Vol where
  vid : UInt16
  isOpen : Bool
  tag : ℕ
deriving DecidableEq, Repr

/-- What a hint meets. -/
structure View where
  volumes : List Vol
  cached : Bool
  statOk : Bool
  sameObject : Bool
deriving DecidableEq, Repr

/-- What a hint has done to it. -/
inductive Action where
  | noMatch
  | pfdPurge
  | terminate
  | removeTree
  | modify
  | modifyAndEmpty
  | remove
  | unknown
deriving DecidableEq, Repr

/-- `getvolbyvid`. -/
def getvolbyvid (volumes : List Vol) (vid : UInt16) : Option Vol :=
  match volumes.find? (fun v => v.vid = vid) with
  | none => none
  | some v => if v.isOpen then some v else none

variable {buf rest : List UInt8}

section
variable (bigEndian : Bool)

/-- The action for a hint. -/
def act (view : View) (hint : Payload) : Action :=
  if hint.event = Event.volumeReset.code then
    let resetTag := ntohl bigEndian hint.cnid
    -- a tag of 0 is no tag
    if resetTag ≠ 0 ∧ view.volumes.any (fun v => v.isOpen && v.tag = resetTag) then .terminate
    else .noMatch
  else if getvolbyvid view.volumes hint.vid = none then .noMatch
  else if hint.cnid = 0 ∨ ntohl bigEndian hint.cnid < cnidStart then .noMatch
  else if !view.cached then
    if hint.event = Event.deleteChildren.code ∨ hint.event = Event.refresh.code then .pfdPurge
    else .noMatch
  else if hint.event = Event.refresh.code then
    if view.statOk then .modify else .removeTree
  else if hint.event = Event.delete.code then .remove
  else if hint.event = Event.deleteChildren.code then
    if view.statOk then
      if view.sameObject then .modifyAndEmpty else .modify
    else .removeTree
  else .unknown

/-- The actions that count for the limit of a call. -/
def Action.counts : Action → Bool
  | .noMatch => false
  | .pfdPurge => false
  | _ => true

/-! ### The loop -/

/-- The loop over the whole messages in the buffer, with the number of hints that counted and the
views of the hints to come: the hints taken and the bytes left. -/
def takeHints : ℕ → (ℕ → View) → ℕ → List UInt8 → List (Payload × Action) × List UInt8
  | 0, _, _, buf => ([], buf)
  | n + 1, views, processed, buf =>
    if processed < maxHintsPerCycle then
      let hint := readPayload bigEndian (buf.drop ipcHeaderlen)
      let action := act bigEndian (views 0) hint
      let buf := buf.drop msgSize
      -- the session ends, and the hints behind stay in the buffer
      if action = .terminate then ([(hint, action)], buf)
      else
        let (hints, left) := takeHints n (fun i => views (i + 1))
          (if action.counts then processed + 1 else processed) buf
        ((hint, action) :: hints, left)
    else ([], buf)

/-! ### Calls -/

/-- What a read does: it gives at most so many bytes and one more, the pipe is empty, its other end
is closed, or it fails in another way. -/
inductive ReadResult where
  | bytes (more : ℕ)
  | again
  | eof
  | error
deriving DecidableEq, Repr

/-- A session's end of the pipe: `hint_fd`, the bytes carried over in the buffer, and the bytes in
the pipe. -/
structure Reader where
  hintFd : Bool
  carry : List UInt8
  pipe : List UInt8
deriving DecidableEq, Repr

/-- What a call meets. -/
structure Call where
  result : ReadResult
  views : ℕ → View

/-- `process_cache_hints`: the hints taken, and the new state. -/
def processCacheHints (call : Call) (r : Reader) : List (Payload × Action) × Reader :=
  if !r.hintFd then ([], r)
  else
    match call.result with
    | .eof => ([], { r with hintFd := false, carry := [] })
    | .again => ([], r)
    | .error => ([], { r with carry := [] })
    | .bytes more =>
      let n := min (more + 1) (hintReadBufSize - r.carry.length)
      -- a read into a full buffer looks like the end of the file
      if n = 0 then ([], { r with hintFd := false, carry := [] })
      else if r.pipe = [] then ([], r)
      else
        let buf := r.carry ++ r.pipe.take n
        let (hints, left) := takeHints bigEndian (buf.length / msgSize) call.views 0 buf
        (hints, { r with carry := left, pipe := r.pipe.drop n })

/-- A number of calls. -/
def processAll : List Call → Reader → List (Payload × Action) × Reader
  | [], r => ([], r)
  | c :: cs, r =>
    let (hints, r) := processCacheHints bigEndian c r
    let (more, r) := processAll cs r
    (hints ++ more, r)

/-! ### Framing -/

variable {bigEndian} {msgs : List HintEntry}

/-- The first message of a stream, in front of the buffer that holds at least one. -/
theorem exists_message
    (h : serializeHints bigEndian msgs = buf ++ rest) (hlen : msgSize ≤ buf.length) :
    ∃ e msgs', msgs = e :: msgs' ∧ buf = serializeHint bigEndian e ++ buf.drop msgSize ∧
      serializeHints bigEndian msgs' = buf.drop msgSize ++ rest := by
  cases msgs with
  | nil =>
    have := congrArg List.length h
    rw [length_serializeHints, length_append, length_nil] at this
    have hpos : 0 < msgSize := by decide
    omega
  | cons e msgs =>
    have hcons : serializeHints bigEndian (e :: msgs) =
        serializeHint bigEndian e ++ serializeHints bigEndian msgs := rfl
    have hsplit : serializeHint bigEndian e ++ serializeHints bigEndian msgs =
        buf.take msgSize ++ (buf.drop msgSize ++ rest) := by
      rw [← hcons, h, ← append_assoc, take_append_drop]
    obtain ⟨hfirst, hrest⟩ := append_inj hsplit (by
      rw [length_serializeHint, length_take]
      omega)
    exact ⟨e, msgs, rfl, by rw [hfirst, take_append_drop], hrest⟩

/-- The loop takes the first messages of the stream from the buffer, at least one when there is
one. -/
theorem takeHints_first {n : ℕ} {views : ℕ → View} {processed : ℕ}
    (h : serializeHints bigEndian msgs = buf ++ rest) (hn : n * msgSize ≤ buf.length) :
    ∃ j, (takeHints bigEndian n views processed buf).1.map Prod.fst =
        (msgs.take j).map HintEntry.payload ∧
      j * msgSize ≤ buf.length ∧
      (takeHints bigEndian n views processed buf).2 = buf.drop (j * msgSize) ∧
      (processed = 0 → 0 < n → 0 < j) := by
  induction n generalizing msgs views processed buf with
  | zero => exact ⟨0, by simp [takeHints], by simp, by simp [takeHints], fun _ h => h⟩
  | succ n ih =>
    rw [Nat.succ_mul] at hn
    rw [takeHints]
    split_ifs with hproc
    · obtain ⟨e, msgs', rfl, hbuf, hrest⟩ := exists_message h (by omega)
      have hpayload : readPayload bigEndian (buf.drop ipcHeaderlen) = e.payload := by
        rw [hbuf, readPayload_serializeHint]
      simp only [hpayload]
      by_cases hterm : act bigEndian (views 0) e.payload = .terminate
      · rw [if_pos hterm]
        exact ⟨1, by simp, by omega, by rw [one_mul], fun _ _ => by decide⟩
      · rw [if_neg hterm]
        have hn' : n * msgSize ≤ (buf.drop msgSize).length := by
          rw [length_drop]
          omega
        obtain ⟨j, hhints, hle, hleft, -⟩ := ih hrest hn'
        rw [length_drop] at hle
        refine ⟨j + 1, ?_, ?_, ?_, fun _ _ => Nat.succ_pos j⟩
        · rw [map_cons, hhints, take_succ_cons, map_cons]
        · rw [Nat.succ_mul]
          omega
        · rw [hleft, drop_drop, Nat.succ_mul, add_comm]
    · refine ⟨0, by simp, by simp, by simp, fun h0 => ?_⟩
      subst h0
      exact absurd (by decide) hproc

end

section
variable (bigEndian : Bool)

/-- The hints taken are the first messages of the stream, there is room for a message behind the
bytes carried over, and while the pipe is open these and the bytes in it are the other messages. -/
def Framed (msgs : List HintEntry) (taken : List Payload) (r : Reader) : Prop :=
  ∃ j, taken = (msgs.take j).map HintEntry.payload ∧
    r.carry.length + msgSize ≤ hintReadBufSize ∧
    (r.hintFd = true → serializeHints bigEndian (msgs.drop j) = r.carry ++ r.pipe)

variable {bigEndian} {msgs : List HintEntry} {taken : List Payload} {r : Reader}

/-- A call keeps the framing. -/
theorem Framed.processCacheHints (h : Framed bigEndian msgs taken r) {call : Call}
    (hcall : call.result ≠ .error) :
    Framed bigEndian msgs (taken ++ (Hint.processCacheHints bigEndian call r).1.map Prod.fst)
      (Hint.processCacheHints bigEndian call r).2 := by
  obtain ⟨j, htaken, hroom, hopen⟩ := h
  have hsame : Framed bigEndian msgs (taken ++ []) r :=
    ⟨j, by rw [append_nil, htaken], hroom, hopen⟩
  have hclosed : Framed bigEndian msgs (taken ++ []) { r with hintFd := false, carry := [] } :=
    ⟨j, by rw [append_nil, htaken], show 0 + msgSize ≤ hintReadBufSize by decide, by simp⟩
  fun_cases Hint.processCacheHints bigEndian call r with
  | case2 | case5 => exact hclosed
  | case4 _ herror => exact absurd herror hcall
  | case7 hfd more hres n hn hpipe buf hints left htake =>
    have hstream : serializeHints bigEndian (msgs.drop j) = buf ++ r.pipe.drop n := by
      rw [hopen (by simpa using hfd), append_assoc, take_append_drop]
    have hbuf : buf.length ≤ hintReadBufSize := by
      have := length_take_le n r.pipe
      rw [length_append]
      omega
    obtain ⟨i, hhints, hle, hleft, hsome⟩ :=
      takeHints_first hstream (Nat.div_mul_le_self buf.length msgSize)
    rw [htake] at hhints hleft
    subst hleft
    refine ⟨j + i, ?_, ?_, fun _ => ?_⟩
    · rw [htaken, hhints, ← map_append, ← take_add]
    · -- a message was taken, or the buffer holds less than one
      have hpos := hsome rfl
      rw [length_drop]
      simp only [msgSize, ipcHeaderlen, payloadLen, hintReadBufSize, maxHintsPerCycle] at *
      omega
    · rw [← drop_drop, ← serializeHints_drop, hstream, drop_append_of_le_length hle]
  | _ => exact hsame

/-- A number of calls keep the framing. -/
theorem Framed.processAll (h : Framed bigEndian msgs taken r) {calls : List Call}
    (hcalls : ∀ c ∈ calls, c.result ≠ .error) :
    Framed bigEndian msgs (taken ++ (Hint.processAll bigEndian calls r).1.map Prod.fst)
      (Hint.processAll bigEndian calls r).2 := by
  induction calls generalizing taken r with
  | nil => simpa [Hint.processAll] using h
  | cons c cs ih =>
    have hstep := h.processCacheHints (hcalls c (by simp))
    have := ih hstep fun x hx => hcalls x (by simp [hx])
    rw [append_assoc, ← map_append] at this
    exact this

/-- However the reads split the stream of messages, the hints taken are the first messages sent,
in their order, the bytes behind them are not lost, and there is room for another message in the
buffer. -/
theorem processAll_framed (msgs : List HintEntry) {calls : List Call}
    (hcalls : ∀ c ∈ calls, c.result ≠ .error) :
    (processAll bigEndian calls ⟨true, [], serializeHints bigEndian msgs⟩).1.map Prod.fst <+:
        msgs.map HintEntry.payload ∧
      Framed bigEndian msgs
        ((processAll bigEndian calls ⟨true, [], serializeHints bigEndian msgs⟩).1.map Prod.fst)
        (processAll bigEndian calls ⟨true, [], serializeHints bigEndian msgs⟩).2 := by
  have hstart : Framed bigEndian msgs [] ⟨true, [], serializeHints bigEndian msgs⟩ :=
    ⟨0, rfl, show 0 + msgSize ≤ hintReadBufSize by decide, fun _ => rfl⟩
  have hrun := hstart.processAll hcalls
  refine ⟨?_, hrun⟩
  obtain ⟨j, hj, -⟩ := hrun
  rw [nil_append] at hj
  rw [hj, map_take]
  exact take_prefix _ _

/-- Two messages, of which the first read gets one and a part of the other. -/
theorem processAll_framed_split :
    (processAll false [⟨.bytes 29, fun _ => ⟨[], false, false, false⟩⟩,
        ⟨.again, fun _ => ⟨[], false, false, false⟩⟩,
        ⟨.bytes 100, fun _ => ⟨[], false, false, false⟩⟩]
        ⟨true, [], serializeHints false [⟨1, 20, .refresh, 7⟩, ⟨1, 21, .delete, 8⟩]⟩).1.map
          Prod.fst = [⟨0, 0, 1, 20⟩, ⟨1, 0, 1, 21⟩] ∧
      (processAll false [⟨.bytes 29, fun _ => ⟨[], false, false, false⟩⟩,
        ⟨.again, fun _ => ⟨[], false, false, false⟩⟩,
        ⟨.bytes 100, fun _ => ⟨[], false, false, false⟩⟩]
        ⟨true, [], serializeHints false [⟨1, 20, .refresh, 7⟩, ⟨1, 21, .delete, 8⟩]⟩).1.map
          Prod.fst <+: [⟨0, 0, 1, 20⟩, ⟨1, 0, 1, 21⟩] :=
  ⟨by decide +kernel, (processAll_framed [⟨1, 20, .refresh, 7⟩, ⟨1, 21, .delete, 8⟩]
    (by decide)).1⟩

end

/-! ### From the master to a session -/

variable (bigEndian : Bool) (pipeBuf : ℕ) (pid : UInt32)

/-- What flushes write for a process, whose pipe takes all of a chunk or nothing: the hints due in
each, and the bytes. -/
inductive Sent : List (List HintEntry) → List UInt8 → Prop where
  | nil : Sent [] []
  | flush {ans : ℕ → Answer} {now fd : ℤ} {children : List (List Child)} {m : Master}
      {batches : List Batch} {dues : List (List HintEntry)} {bs : List UInt8}
      (hx : (⟨pid, fd⟩, batches) ∈ (hintFlushPending bigEndian ans pipeBuf now children m).2.1)
      (hwhole : ∀ b ∈ batches, b.last.count = 0 ∨ b.last.count = b.bytes.length)
      (h : Sent dues bs) : Sent (due m.hintBuf.entries pid :: dues) (received batches ++ bs)

section
variable {bigEndian pipeBuf pid} {dues : List (List HintEntry)} {bs : List UInt8}
  (h : Sent bigEndian pipeBuf pid dues bs) (hp : msgSize ≤ pipeBuf)
include h hp

theorem Sent.exists_parts :
    ∃ parts, Forall₂ (· <+: ·) parts dues ∧ serializeHints bigEndian parts.flatten = bs := by
  induction h with
  | nil => exact ⟨[], .nil, rfl⟩
  | @flush ans _ _ _ _ _ _ _ hx hwhole _ ih =>
    rw [hintFlushPending] at hx
    split at hx
    · cases hx
    have hr := (relayChildren_relayed bigEndian ans hp _ _ _ _ _).2 _ hx
    rw [filter_sortHints] at hr
    obtain ⟨hints, hfirst, hrec⟩ := hr.received_hints hwhole
    obtain ⟨parts, hparts, hrest⟩ := ih
    refine ⟨hints :: parts, .cons hfirst hparts, ?_⟩
    rw [flatten_cons, serializeHints_append, hrec, hrest]

/-- However its reads split the pipe, a session takes the first hints due of the flushes, in their
order, and those not taken are carried over or in the pipe. -/
theorem hints_delivered {calls : List Call} (hcalls : ∀ c ∈ calls, c.result ≠ .error) :
    ∃ parts, Forall₂ (· <+: ·) parts dues ∧ serializeHints bigEndian parts.flatten = bs ∧
      Framed bigEndian parts.flatten ((processAll bigEndian calls ⟨true, [], bs⟩).1.map Prod.fst)
        (processAll bigEndian calls ⟨true, [], bs⟩).2 := by
  obtain ⟨parts, hparts, hpipe⟩ := h.exists_parts hp
  have hstart : Framed bigEndian parts.flatten [] ⟨true, [], bs⟩ :=
    ⟨0, rfl, show 0 + msgSize ≤ hintReadBufSize by decide, fun _ => hpipe⟩
  exact ⟨parts, hparts, hpipe, hstart.processAll hcalls⟩

end

/-- A read that ends in the second message. -/
def shortRead : List Call := [⟨.bytes 30, fun _ => ⟨[], false, false, false⟩⟩]

/-- A reset and a refresh of one flush. -/
theorem hints_delivered_reset : ∃ bs parts,
    Sent false 4096 9 [due refreshThenReset.hintBuf.entries 9] bs ∧ Framed false parts
      ((processAll false shortRead ⟨true, [], bs⟩).1.map Prod.fst)
      (processAll false shortRead ⟨true, [], bs⟩).2 := by
  have h := @Sent.flush false 4096 9 (fun _ => ⟨.wrote 44, false, .again⟩) 5 3 [[⟨9, 3⟩]]
    refreshThenReset _ _ _ (.head _) (by decide) .nil
  obtain ⟨_, -, -, hframed⟩ := hints_delivered h (by decide)
    (show ∀ c ∈ shortRead, c.result ≠ .error by decide)
  exact ⟨_, _, h, hframed⟩

end Netatalk.Hint
