import Netatalk.ReadAhead

/-! # The input side of a DSI session

`dsi_stream.c` and `dsi_write.c` read one socket through one read-ahead window.  `dsiPeek` fills the
window while a send waits, `fromBuf` and `dsiWriteinit` take from it, `bufRead` takes from it or,
when it is empty, straight from the socket, and `dsiBufferedStreamRead` does both and refills it
once.

Every function is given the answers of the kernel it will meet, one for each round of its loop.  It
returns the bytes it has copied to its caller and the session it leaves; a function that runs out
of answers is still waiting in the kernel (`result = none`), so that the states of all scripts are
all the states the process can be seen in at a system call.

What is conserved is `Dsi.pending`: the unread bytes of the window followed by the bytes no `recv`
has taken yet.  A function takes the bytes it copies from the front of them and nothing else. -/

namespace Netatalk.DsiStream

open List Window

/-! ### The session and the kernel -/

def dsiBlocksiz : ℕ := 16
def dsiDatasiz : ℕ := 65536
def dsifuncCmd : UInt8 := 2
def dsifuncWrite : UInt8 := 6
def dsiWroffFpwrite : ℕ := 12
def dsiWroffFpwriteext : ℕ := 20
def fdSetsize : ℤ := 1024

/-- The request header, as far as it has been parsed. -/
structure Header where
  flags : UInt8
  command : UInt8
  requestID : ℕ
  doff : ℕ
  len : ℕ
deriving DecidableEq

/-- What the reading functions use of a session, and the bytes `net` that the client sends and no
`recv` has taken yet.  A master without a read-ahead buffer has an empty one. -/
structure Dsi where
  window : Window
  net : List UInt8
  socket : ℤ
  disconnected : Bool
  header : Header
  cmdlen : ℕ
  datasize : ℕ
  serverQuantum : ℕ
deriving DecidableEq

/-- All bytes of the client that no caller has been given. -/
def Dsi.pending (d : Dsi) : List UInt8 := d.window.unread ++ d.net

inductive Errno where
  | again | intr | other
deriving DecidableEq

inductive Select where
  | intr | fails | writable | readable
deriving DecidableEq

/-- What `recv` comes back with: at most so many bytes (none is end of file), or an error. -/
inductive Recv where
  | data (k : ℕ) | fails (e : Errno)
deriving DecidableEq

/-- How `dsi_wait_input` ends: with input, by disconnecting the session at its time limit or for a
hand-over, or with the error of `poll`. -/
inductive Wait where
  | input | disconnects | fails (e : Errno)
deriving DecidableEq

/-- The answers of the kernel in one round of a loop. -/
structure Answer where
  select : Select
  recv : Recv
  wait : Wait
deriving DecidableEq

/-- What a call has come to: the bytes it has copied to its caller, what it returns if it does not
wait in the kernel, the session it leaves and the answers it has not used. -/
structure Out (α : Type) where
  data : List UInt8
  result : Option α
  dsi : Dsi
  script : List Answer

variable {α β : Type}

/-- A call that returns without copying anything. -/
def Out.ret (a : α) (d : Dsi) (script : List Answer) : Out α := ⟨[], some a, d, script⟩

/-- A call that waits in the kernel. -/
def Out.waits (d : Dsi) : Out α := ⟨[], none, d, []⟩

/-- Go on after a call that has returned. -/
def Out.andThen (o : Out α) (f : α → Dsi → List Answer → Out β) : Out β :=
  match o.result with
  | none => ⟨o.data, none, o.dsi, o.script⟩
  | some a =>
    let p := f a o.dsi o.script
    ⟨o.data ++ p.data, p.result, p.dsi, p.script⟩

variable {a : Recv} {count len length n : ℕ} {f : α → Dsi → List Answer → Out β} {o : Out α}
  {r : Except Errno ℕ} {script : List Answer}

theorem Out.andThen_congr {g : α → Dsi → List Answer → Out β}
    (h : ∀ a, o.result = some a → f a o.dsi o.script = g a o.dsi o.script) :
    o.andThen f = o.andThen g := by
  unfold Out.andThen
  split
  · rfl
  · rename_i a ha
    rw [h a ha]

/-- `recv` of at most `len` bytes from the socket of the session. -/
def recv (d : Dsi) (len : ℕ) : Recv → Except Errno (List UInt8) × Dsi
  | .data k =>
    if d.socket < 0 then (.error .other, d)
    else (.ok (d.net.take (min k len)), { d with net := d.net.drop (min k len) })
  | .fails e => (.error e, d)

def dsiDisconnect (d : Dsi) : Dsi := { d with socket := -1, disconnected := true }

def dsiWaitInput (d : Dsi) : Wait → Except Errno Unit × Dsi
  | .input => (.ok (), d)
  | .disconnects => (.error .other, dsiDisconnect d)
  | .fails e => (.error e, d)

/-! ### Reading -/

/-- `dsi_peek`: wait until the socket takes output, reading ahead meanwhile. -/
def dsiPeek : List Answer → Dsi → Out ℤ
  | script, d =>
    if d.socket < 0 then .ret (-1) d script
    else if fdSetsize ≤ d.socket then .ret (-1) d script
    else
      match script with
      | [] => .waits d
      | a :: script =>
        match a.select with
        | .intr => dsiPeek script d
        | .fails => .ret (-1) d script
        | .writable => .ret 0 d script
        | .readable =>
          -- the socket is in the read set only while the buffer has room
          if d.window.eof < d.window.buffer.length then
            match recv d d.window.room a.recv with
            | (.ok [], d) => .ret (-1) d script
            | (.ok bs, d) => dsiPeek script { d with window := d.window.fill bs }
            | (.error .again, d) => dsiPeek script d
            | (.error _, d) => .ret (-1) d script
          else dsiPeek script d

/-- `from_buf`: take up to `count` bytes from the read-ahead buffer. -/
def fromBuf (d : Dsi) (count : ℕ) : List UInt8 × Dsi :=
  let nbe := d.window.eof - d.window.start
  if 0 < nbe then
    let nbe := min nbe count
    let w := d.window.advance nbe
    (d.window.peekAt nbe, { d with window := if w.eof = w.start then w.rewind else w })
  else ([], d)

/-- The socket reads of `buf_read`. -/
def bufReadSocket (count : ℕ) : List Answer → Dsi → Out (Except Errno ℕ)
  | script, d =>
    if d.socket < 0 then .ret (.error .other) d script
    else
      match script with
      | [] => .waits d
      | a :: script =>
        match recv d count a.recv with
        | (.ok bs, d) => ⟨bs, some (.ok bs.length), d, script⟩
        | (.error .again, d) =>
          match dsiWaitInput d a.wait with
          | (.ok _, d) => bufReadSocket count script d
          | (.error e, d) => .ret (.error e) d script
        | (.error e, d) => .ret (.error e) d script

/-- `buf_read`: bytes of the read-ahead buffer, or of the socket when it is empty. -/
def bufRead (d : Dsi) (count : ℕ) (script : List Answer) : Out (Except Errno ℕ) :=
  if count = 0 then .ret (.ok 0) d script
  else
    match fromBuf d count with
    | ([], d) => bufReadSocket count script d
    | (bs, d) => ⟨bs, some (.ok bs.length), d, script⟩

/-- A socket read that has returned has used an answer, or has failed for good. -/
theorem script_bufReadSocket {d : Dsi} (h : (bufReadSocket count script d).result = some r) :
    r = .error .other ∨ (bufReadSocket count script d).script.length < script.length := by
  fun_induction bufReadSocket count script d with
  | case1 =>
    cases h
    exact .inl rfl
  | case2 => cases h
  | case4 _ _ _ _ _ _ _ _ _ ih => exact (ih h).imp_right Nat.lt_succ_of_lt
  | _ => exact .inr (Nat.lt_succ_self _)

/-- The only reads that return without having used an answer are those that fail for good and those
that are for nothing or that the buffer serves. -/
theorem script_bufRead {d : Dsi} (h : (bufRead d count script).result = some r) :
    r = .error .other ∨ (bufRead d count script).script.length < script.length ∨
      (∃ n, r = .ok n) ∧ (bufRead d count script).script = script := by
  unfold bufRead at h ⊢
  split_ifs at h ⊢ with hc
  · exact .inr (.inr ⟨⟨0, by cases h; rfl⟩, rfl⟩)
  · split at h
    · rcases script_bufReadSocket h with h | h
      · exact .inl h
      · exact .inr (.inl h)
    · rename_i bs _ _ _
      exact .inr (.inr ⟨⟨bs.length, by cases h; rfl⟩, rfl⟩)

/-- The loop of `dsi_stream_read`, with `stored` bytes of `length` already copied. -/
def dsiStreamReadLoop (length stored : ℕ) (d : Dsi) (script : List Answer) : Out ℕ :=
  if stored < length then
    match _h : bufRead d (length - stored) script with
    | ⟨data, none, d', script'⟩ => ⟨data, none, d', script'⟩
    | ⟨data, some (.error e), d', script'⟩ =>
      if e = .intr ∨ e = .again then
        let o := dsiStreamReadLoop length stored d' script'
        { o with data := data ++ o.data }
      else ⟨data, some 0, d', script'⟩
    | ⟨data, some (.ok n), d', script'⟩ =>
      if 0 < n then
        let o := dsiStreamReadLoop length (stored + n) d' script'
        { o with data := data ++ o.data }
      else ⟨data, some 0, d', script'⟩
  else .ret stored d script
termination_by length - stored + script.length
decreasing_by
  · rename_i he
    have hs : (bufRead d (length - stored) script).result = some (.error e) := by rw [_h]
    have hlt := script_bufRead hs
    simp only [_h] at hlt
    rcases hlt with hlt | hlt | ⟨⟨n, hlt⟩, _⟩
    · cases hlt
      simp at he
    · omega
    · cases hlt
  · have hs : (bufRead d (length - stored) script).result = some (.ok n) := by rw [_h]
    have hlt := script_bufRead hs
    simp only [_h] at hlt
    rcases hlt with hlt | hlt | ⟨_, rfl⟩
    · cases hlt
    · omega
    · omega

/-- `dsi_stream_read`: `length` bytes from the read-ahead buffer and the socket.  It counts 0 when
the input ends or fails before, though what had come by then has been copied. -/
def dsiStreamRead (d : Dsi) (length : ℕ) (script : List Answer) : Out ℕ :=
  if d.disconnected then .ret 0 d script else dsiStreamReadLoop length 0 d script

/-- The one `recv` by which `dsi_buffered_stream_read` refills the read-ahead buffer. -/
def refill (d : Dsi) (script : List Answer) : Out Unit :=
  let buflen := min 8192 d.window.room
  if 0 < buflen ∧ 0 ≤ d.socket then
    match script with
    | [] => .waits d
    | a :: script =>
      match recv d buflen a.recv with
      | (.ok bs, d) => .ret () { d with window := d.window.fill bs } script
      | (.error _, d) => .ret () d script
  else .ret () d script

/-- `dsi_buffered_stream_read`: from the read-ahead buffer, which is refilled if that was not
enough. -/
def dsiBufferedStreamRead (d : Dsi) (length : ℕ) (script : List Answer) : Out ℕ :=
  let (bs, d) := fromBuf d length
  (Out.mk bs (some ()) d script).andThen fun _ d script =>
    if bs.length = length then .ret length d script
    else
      (refill d script).andThen fun _ d script =>
        (dsiStreamRead d (length - bs.length) script).andThen fun n d script =>
          .ret (if n = length - bs.length then bs.length + n else 0) d script

/-! ### Requests -/

/-- The fields of a header of `DSI_BLOCKSIZ` bytes, numbers most significant byte first. -/
def parseHeader (block : List UInt8) : Header where
  flags := block.getD 0 0
  command := block.getD 1 0
  requestID := Bytes.beNat ((block.drop 2).take 2)
  doff := Bytes.beNat ((block.drop 4).take 4)
  len := Bytes.beNat ((block.drop 8).take 4)

/-- The data offset a write is read with: clients that write nothing send none. -/
def writeOffset (h : Header) : ℕ :=
  if h.command = dsifuncWrite ∧ h.doff = 0 then dsiWroffFpwrite else h.doff

/-- The checks `dsi_stream_receive` makes on the lengths of a request. -/
def lengthsOk (h : Header) (serverQuantum : ℕ) : Bool :=
  (if h.command = dsifuncWrite then
    (h.doff = dsiWroffFpwrite ∨ h.doff = dsiWroffFpwriteext) ∧ h.doff ≤ h.len ∧
      h.len - h.doff ≤ serverQuantum
  else h.len ≤ serverQuantum) ∧
  ((h.command = dsifuncCmd ∨ h.command = dsifuncWrite) → 1 ≤ h.len)

/-- The bytes `dsi_stream_receive` reads after the header. -/
def commandLength (h : Header) : ℕ :=
  if h.command = dsifuncWrite ∧ h.doff ≠ 0 then h.doff else h.len

/-- `dsi_stream_receive`: the header and the command of the next request.  The data of a write is
left to the call that handles it. -/
def dsiStreamReceive (d : Dsi) (script : List Answer) : Out UInt8 :=
  if d.disconnected then .ret 0 d script
  else
    let block := dsiBufferedStreamRead d dsiBlocksiz script
    block.andThen fun n d script =>
      if n ≠ dsiBlocksiz then .ret 0 d script
      else
        let h := parseHeader block.data
        if h.command = 0 then
          .ret 0 { d with header := { d.header with flags := h.flags, command := 0 } } script
        else
          let h := { h with doff := writeOffset h }
          let d := { d with header := h }
          if ! lengthsOk h d.serverQuantum then .ret 0 d script
          else
            let cmdlen := commandLength h
            (dsiStreamRead { d with cmdlen := cmdlen } cmdlen script).andThen fun n d script =>
              .ret (if n = cmdlen then h.command else 0) d script

/-- `dsi_writeinit`: begin to read the data of a write and hand out what the read-ahead buffer holds
of it, or drop that when the caller does not want it. -/
def dsiWriteinit (d : Dsi) (script : List Answer) : Out ℕ :=
  if d.header.len < d.header.doff then .ret 0 d script
  else
    let datasize := d.header.len - d.header.doff
    if d.window.start < d.window.eof then
      let bytes := min (d.window.eof - d.window.start) datasize
      let w := d.window.advance bytes
      ⟨d.window.peekAt bytes, some bytes,
        { d with
          datasize := datasize - bytes
          window := if w.eof ≤ w.start then w.rewind else w }, script⟩
    else .ret 0 { d with datasize := datasize } script

/-- `dsi_write`: the next part of the data of a write. -/
def dsiWrite (d : Dsi) (buflen : ℕ) (script : List Answer) : Out ℕ :=
  let length := min buflen d.datasize
  if 0 < length then
    (dsiStreamRead d length script).andThen fun n d script =>
      .ret n { d with datasize := d.datasize - n } script
  else .ret 0 d script

/-- The loop of `dsi_writeflush`, which ends at the latest when `rounds` reads have each taken a
byte off `datasize`. -/
def dsiWriteflushLoop : ℕ → Dsi → List Answer → Out Unit
  | 0, d, script => .ret () d script
  | rounds + 1, d, script =>
    if 0 < d.datasize then
      (dsiStreamRead d (min dsiDatasiz d.datasize) script).andThen fun n d script =>
        if 0 < n then dsiWriteflushLoop rounds { d with datasize := d.datasize - n } script
        else .ret () d script
    else .ret () d script

/-- `dsi_writeflush`: read off the rest of the data of a write. -/
def dsiWriteflush (d : Dsi) (script : List Answer) : Out Unit :=
  dsiWriteflushLoop d.datasize d script

/-- `dsi_writedrain`: read off the whole data of a write no handler has read. -/
def dsiWritedrain (d : Dsi) (script : List Answer) : Out Unit :=
  if d.header.command ≠ dsifuncWrite then .ret () d script
  else (dsiWriteinit d script).andThen fun _ d script => dsiWriteflush d script

/-! ### What the functions take from the input -/

/-- From `d` to `d'` the bytes `bs`, and only they, have left the front of the input. -/
structure Takes (d : Dsi) (bs : List UInt8) (d' : Dsi) : Prop where
  valid : d'.window.Valid
  size : d'.window.buffer.length = d.window.buffer.length
  pending : d.pending = bs ++ d'.pending

/-- The same, of a function that knows nothing of the write in progress. -/
structure Reads (d : Dsi) (bs : List UInt8) (d' : Dsi) : Prop extends Takes d bs d' where
  datasize : d'.datasize = d.datasize

variable {d d' d'' : Dsi} {bs cs : List UInt8}

theorem Takes.of_eq (hv : d.window.Valid) (hw : d'.window = d.window) (hn : d'.net = d.net) :
    Takes d [] d' := by
  refine ⟨hw ▸ hv, by rw [hw], ?_⟩
  rw [Dsi.pending, Dsi.pending, hw, hn, nil_append]

theorem Takes.of_start (d₀ : Dsi) (h : Takes d₀ bs d') (hw : d₀.window = d.window)
    (hn : d₀.net = d.net) : Takes d bs d' := by
  refine ⟨h.valid, by rw [h.size, hw], ?_⟩
  rw [← h.pending, Dsi.pending, Dsi.pending, hw, hn]

theorem Takes.trans (h : Takes d bs d') (h' : Takes d' cs d'') : Takes d (bs ++ cs) d'' :=
  ⟨h'.valid, h'.size.trans h.size, by rw [h.pending, h'.pending, append_assoc]⟩

theorem Reads.refl (hv : d.window.Valid) : Reads d [] d := ⟨.of_eq hv rfl rfl, rfl⟩

theorem Reads.trans (h : Reads d bs d') (h' : Reads d' cs d'') : Reads d (bs ++ cs) d'' :=
  ⟨h.toTakes.trans h'.toTakes, h'.datasize.trans h.datasize⟩

/-- What follows a call need only take from the front whatever valid session it is left. -/
theorem Takes.andThen (h : Takes d o.data o.dsi)
    (hf : ∀ a d script, d.window.Valid → Takes d (f a d script).data (f a d script).dsi) :
    Takes d (o.andThen f).data (o.andThen f).dsi := by
  unfold Out.andThen
  split
  · exact h
  · exact h.trans (hf _ _ _ h.valid)

theorem recv_ok (h : recv d len a = (.ok bs, d')) :
    bs.length ≤ len ∧ ∃ rest, d.net = bs ++ rest ∧ d' = { d with net := rest } := by
  cases a with
  | fails => cases h
  | data k =>
    rw [recv] at h
    split_ifs at h
    · cases h
    · cases h
      refine ⟨?_, _, (take_append_drop _ _).symm, rfl⟩
      rw [length_take]
      omega

theorem recv_error {e : Errno} (h : recv d len a = (.error e, d')) : d' = d := by
  cases a with
  | fails => cases h; rfl
  | data =>
    rw [recv] at h
    split_ifs at h
    · cases h
      rfl
    · cases h

/-- Bytes received behind `eof` are still to be taken. -/
theorem reads_fill (hv : d.window.Valid) (hl : len ≤ d.window.room)
    (h : recv d len a = (.ok bs, d')) : Reads d [] { d' with window := d'.window.fill bs } := by
  obtain ⟨hlen, rest, hnet, rfl⟩ := recv_ok h
  have hfit : bs.length ≤ d.window.room := hlen.trans hl
  refine ⟨⟨valid_fill hv hfit, length_buffer_fill hv hfit, ?_⟩, rfl⟩
  simp only [Dsi.pending, unread_fill hv hfit, hnet, nil_append, append_assoc]

/-- Bytes received past an empty window are the next ones, and no bytes always are. -/
theorem reads_recv (hv : d.window.Valid) (hempty : d.window.unread = [] ∨ bs = [])
    (h : recv d len a = (.ok bs, d')) : Reads d bs d' := by
  obtain ⟨_, rest, hnet, rfl⟩ := recv_ok h
  refine ⟨⟨hv, rfl, ?_⟩, rfl⟩
  rcases hempty with hempty | rfl
  · simp only [Dsi.pending, hempty, hnet, nil_append]
  · simp only [Dsi.pending, hnet, nil_append]

/-- `dsi_peek` copies nothing and changes nothing but the input. -/
theorem reads_dsiPeek (script : List Answer) (hv : d.window.Valid) :
    Reads d [] (dsiPeek script d).dsi ∧ (dsiPeek script d).data = [] ∧
      ∃ w net, (dsiPeek script d).dsi = { d with window := w, net := net } := by
  fun_induction dsiPeek script d with
  | case4 d _ _ a script _ ih => exact ih hv
  | case7 d _ _ a script _ _ d' hr =>
    have hrecv := reads_recv hv (.inr rfl) hr
    obtain ⟨_, rest, _, rfl⟩ := recv_ok hr
    exact ⟨hrecv, rfl, _, _, rfl⟩
  | case8 d _ _ a script _ _ bs d' _ hr ih =>
    have hfill := reads_fill hv le_rfl hr
    obtain ⟨_, rest, _, rfl⟩ := recv_ok hr
    obtain ⟨hreads, hsame⟩ := ih hfill.valid
    exact ⟨hfill.trans hreads, hsame⟩
  | case9 d _ _ a script _ _ d' hr ih =>
    obtain rfl := recv_error hr
    exact ih hv
  | case10 d _ _ a script _ _ e d' _ hr =>
    obtain rfl := recv_error hr
    exact ⟨.refl hv, rfl, _, _, rfl⟩
  | case11 d _ _ a script _ _ ih => exact ih hv
  | _ => exact ⟨.refl hv, rfl, _, _, rfl⟩

/-- Bytes copied from `start` on leave the front of the input when `start` moves past them, whether
or not the window is then rewound for being empty. -/
theorem takes_advance {p : Prop} [Decidable p] (hv : d.window.Valid)
    (hn : n ≤ d.window.eof - d.window.start)
    (hp : p → (d.window.advance n).eof ≤ (d.window.advance n).start)
    (hw : d'.window = if p then (d.window.advance n).rewind else d.window.advance n)
    (hnet : d'.net = d.net) : Takes d (d.window.peekAt n) d' := by
  refine ⟨?_, ?_, ?_⟩
  · rw [hw]
    exact valid_rewind (valid_advance hv hn)
  · rw [hw]
    exact length_buffer_rewind
  · rw [Dsi.pending, Dsi.pending, hw, hnet, unread_rewind hp, unread_advance,
      peekAt_eq n hn, ← append_assoc, take_append_drop]

theorem reads_fromBuf (count : ℕ) (hv : d.window.Valid) :
    Reads d (fromBuf d count).1 (fromBuf d count).2 := by
  fun_cases fromBuf d count with
  | case1 => exact ⟨takes_advance hv (min_le_left _ _) le_of_eq rfl rfl, rfl⟩
  | case2 => exact .refl hv

theorem unread_of_fromBuf (hc : count ≠ 0) (hv : d.window.Valid)
    (h : (fromBuf d count).1 = []) : (fromBuf d count).2.window.unread = [] := by
  revert h
  fun_cases fromBuf d count with
  | case1 nbe hpos n w =>
    intro h
    have hlen := congrArg List.length h
    rw [peekAt_eq n (min_le_left _ _), length_take, length_unread hv,
      length_nil] at hlen
    omega
  | case2 nbe hpos =>
    intro _
    have hle : d.window.eof ≤ d.window.start := by omega
    exact unread_eq_nil hle

theorem reads_dsiWaitInput {a : Wait} {r : Except Errno Unit} (hv : d.window.Valid)
    (h : dsiWaitInput d a = (r, d')) : Reads d [] d' ∧ d'.window = d.window := by
  cases a with
  | input | fails => cases h; exact ⟨.refl hv, rfl⟩
  | disconnects => cases h; exact ⟨⟨.of_eq hv rfl rfl, rfl⟩, rfl⟩

section
variable (count length n) (script) (hv : d.window.Valid)
include hv

theorem reads_bufReadSocket (hempty : d.window.unread = []) :
    Reads d (bufReadSocket count script d).data (bufReadSocket count script d).dsi := by
  fun_induction bufReadSocket count script d with
  | case1 | case2 => exact .refl hv
  | case3 d _ a script bs d' hr => exact reads_recv hv (.inl hempty) hr
  | case4 d _ a script d' hr _ d'' hw ih =>
    obtain rfl := recv_error hr
    obtain ⟨hwait, hwin⟩ := reads_dsiWaitInput hv hw
    exact hwait.trans (ih hwait.valid (hwin ▸ hempty))
  | case5 d _ a script d' hr e d'' hw =>
    obtain rfl := recv_error hr
    exact (reads_dsiWaitInput hv hw).1
  | case6 d _ a script e d' _ hr =>
    obtain rfl := recv_error hr
    exact .refl hv

theorem reads_bufRead :
    Reads d (bufRead d count script).data (bufRead d count script).dsi := by
  have hfrom := reads_fromBuf count hv
  unfold bufRead
  split_ifs with hc
  · exact .refl hv
  · split
    · rename_i d' heq
      have hnil := unread_of_fromBuf hc hv (by rw [heq])
      rw [heq] at hfrom hnil
      exact hfrom.trans (reads_bufReadSocket count script hfrom.valid hnil)
    · rename_i bs d' _ heq
      rw [heq] at hfrom
      exact hfrom

theorem reads_of_bufRead {res : Option (Except Errno ℕ)} {script' : List Answer}
    (h : bufRead d count script = ⟨bs, res, d', script'⟩) : Reads d bs d' := by
  have hbuf := reads_bufRead count script hv
  rwa [h] at hbuf

theorem reads_dsiStreamReadLoop : Reads d (dsiStreamReadLoop length n d script).data
      (dsiStreamReadLoop length n d script).dsi := by
  fun_induction dsiStreamReadLoop length n d script with
  | case1 _ _ _ _ _ _ _ heq | case3 _ _ _ _ _ _ _ _ heq | case5 _ _ _ _ _ _ _ _ heq =>
    exact reads_of_bufRead _ _ hv heq
  | case2 _ _ _ _ _ _ _ _ heq _ _ ih | case4 _ _ _ _ _ _ _ _ heq _ _ ih =>
    have hbuf := reads_of_bufRead _ _ hv heq
    exact hbuf.trans (ih hbuf.valid)
  | case6 => exact .refl hv

theorem reads_dsiStreamRead :
    Reads d (dsiStreamRead d length script).data (dsiStreamRead d length script).dsi := by
  unfold dsiStreamRead
  split_ifs
  · exact .refl hv
  · exact reads_dsiStreamReadLoop length 0 script hv

theorem reads_refill :
    Reads d (refill d script).data (refill d script).dsi := by
  fun_cases refill d script with
  | case1 | case4 => exact .refl hv
  | case2 buflen _ a script bs d' hr => exact reads_fill hv (min_le_right _ _) hr
  | case3 buflen _ a script e d' hr =>
    obtain rfl := recv_error hr
    exact .refl hv

theorem takes_dsiBufferedStreamRead :
    Takes d (dsiBufferedStreamRead d length script).data
      (dsiBufferedStreamRead d length script).dsi := by
  have hfrom := reads_fromBuf length hv
  apply Takes.andThen hfrom.toTakes
  intro _ d₂ script hv
  split_ifs
  · exact .of_eq hv rfl rfl
  · apply (reads_refill script hv).toTakes.andThen
    intro _ d₃ script hv
    apply (reads_dsiStreamRead _ script hv).toTakes.andThen
    intro n d₄ script hv
    exact .of_eq hv rfl rfl

theorem takes_dsiStreamReceive :
    Takes d (dsiStreamReceive d script).data (dsiStreamReceive d script).dsi := by
  unfold dsiStreamReceive
  split_ifs
  · exact .of_eq hv rfl rfl
  · apply (takes_dsiBufferedStreamRead dsiBlocksiz script hv).andThen
    intro n d₁ script hv
    dsimp only
    split_ifs
    · exact .of_eq hv rfl rfl
    · exact .of_eq hv rfl rfl
    · exact .of_eq hv rfl rfl
    · refine .of_start _ (Takes.andThen (reads_dsiStreamRead _ script ?_).toTakes ?_) rfl rfl
      · exact hv
      · exact fun n d₂ script hv => .of_eq hv rfl rfl

theorem takes_dsiWriteinit :
    Takes d (dsiWriteinit d script).data (dsiWriteinit d script).dsi := by
  fun_cases dsiWriteinit d script with
  | case1 | case3 => exact .of_eq hv rfl rfl
  | case2 => exact takes_advance hv (min_le_left _ _) id rfl rfl

theorem takes_dsiWrite : Takes d (dsiWrite d count script).data (dsiWrite d count script).dsi := by
  unfold dsiWrite
  dsimp only
  split_ifs
  · apply (reads_dsiStreamRead _ script hv).toTakes.andThen
    intro n d₁ script hv
    exact .of_eq hv rfl rfl
  · exact .of_eq hv rfl rfl

theorem takes_dsiWriteflushLoop :
    Takes d (dsiWriteflushLoop n d script).data (dsiWriteflushLoop n d script).dsi := by
  induction n generalizing d script with
  | zero => exact .of_eq hv rfl rfl
  | succ n ih =>
    rw [dsiWriteflushLoop]
    split_ifs
    · apply (reads_dsiStreamRead _ script hv).toTakes.andThen
      intro n d₁ script hv
      split_ifs
      · exact .of_start _ (ih script hv) rfl rfl
      · exact .of_eq hv rfl rfl
    · exact .of_eq hv rfl rfl

end

theorem dsiWriteflushLoop_rounds {rounds rounds' : ℕ} (script : List Answer)
    (hv : d.window.Valid) (h : d.datasize ≤ rounds) (h' : d.datasize ≤ rounds') :
    dsiWriteflushLoop rounds d script = dsiWriteflushLoop rounds' d script := by
  induction rounds generalizing rounds' d script with
  | zero =>
    cases rounds' with
    | zero => rfl
    | succ rounds' => rw [dsiWriteflushLoop, dsiWriteflushLoop, if_neg (by omega)]
  | succ rounds ih =>
    cases rounds' with
    | zero => rw [dsiWriteflushLoop, dsiWriteflushLoop, if_neg (by omega)]
    | succ rounds' =>
      have hread := reads_dsiStreamRead (min dsiDatasiz d.datasize) script hv
      have hsize := hread.datasize
      rw [dsiWriteflushLoop, dsiWriteflushLoop]
      split_ifs
      · apply Out.andThen_congr
        intro n _
        split_ifs
        · exact ih _ hread.valid (by simp only; omega) (by simp only; omega)
        · rfl
      · rfl

/-- The rounds `dsiWriteflush` is given are enough: it is the loop of the source. -/
theorem dsiWriteflush_eq (script : List Answer) (hv : d.window.Valid) : dsiWriteflush d script =
      if 0 < d.datasize then
        (dsiStreamRead d (min dsiDatasiz d.datasize) script).andThen fun n d script =>
          if 0 < n then dsiWriteflush { d with datasize := d.datasize - n } script
          else .ret () d script
      else .ret () d script := by
  have hread := reads_dsiStreamRead (min dsiDatasiz d.datasize) script hv
  have hsize := hread.datasize
  rw [dsiWriteflush, dsiWriteflushLoop_rounds script hv le_rfl (Nat.le_succ _),
    dsiWriteflushLoop]
  split_ifs
  · apply Out.andThen_congr
    intro n _
    split_ifs
    · exact dsiWriteflushLoop_rounds _ hread.valid (by simp only; omega) le_rfl
    · rfl
  · rfl

theorem takes_dsiWritedrain (script : List Answer) (hv : d.window.Valid) :
    Takes d (dsiWritedrain d script).data (dsiWritedrain d script).dsi := by
  unfold dsiWritedrain
  split_ifs
  · exact .of_eq hv rfl rfl
  · apply (takes_dsiWriteinit script hv).andThen
    intro _ d₁ script hv
    exact takes_dsiWriteflushLoop _ script hv

/-! ### The counts the reads report -/

theorem length_fromBuf (d : Dsi) (count : ℕ) : (fromBuf d count).1.length ≤ count := by
  fun_cases fromBuf d count with
  | case1 nbe _ n =>
    rw [peekAt, length_take]
    omega
  | case2 => exact zero_le

/-- How many bytes a `buf_read` that has returned `r` has copied. -/
def copied : Except Errno ℕ → ℕ
  | .ok n => n
  | .error _ => 0

theorem length_bufReadSocket (h : (bufReadSocket count script d).result = some r) :
    (bufReadSocket count script d).data.length = copied r ∧ copied r ≤ count := by
  fun_induction bufReadSocket count script d with
  | case2 => cases h
  | case3 d _ a script bs d' hr => cases h; exact ⟨rfl, (recv_ok hr).1⟩
  | case4 d _ a script d' hr _ d'' hw ih => exact ih h
  | _ => cases h; exact ⟨rfl, zero_le⟩

theorem length_bufRead (h : (bufRead d count script).result = some r) :
    (bufRead d count script).data.length = copied r ∧ copied r ≤ count := by
  have hfrom := length_fromBuf d count
  unfold bufRead at h ⊢
  split_ifs at h ⊢ with hc
  · cases h
    exact ⟨rfl, zero_le⟩
  · split at h
    · exact length_bufReadSocket h
    · rename_i bs d' _ heq
      rw [heq] at hfrom
      cases h
      exact ⟨rfl, hfrom⟩

theorem length_dsiStreamReadLoop {stored : ℕ}
    (hs : stored ≤ length) (h : (dsiStreamReadLoop length stored d script).result = some n) :
    n = 0 ∨ n = length ∧ stored + (dsiStreamReadLoop length stored d script).data.length = n := by
  fun_induction dsiStreamReadLoop length stored d script with
  | case1 => cases h
  | case2 stored d script _ data e d' script' heq _ o ih =>
    have hlen := (length_bufRead (show (bufRead d (length - stored) script).result = _ by
      rw [heq])).1
    rw [heq] at hlen
    refine (ih hs h).imp_right fun hn => ⟨hn.1, ?_⟩
    rw [← hn.2, length_append, hlen, copied, zero_add]
  | case3 | case5 => cases h; exact .inl rfl
  | case4 stored d script _ data k d' script' heq _ o ih =>
    have hlen := length_bufRead (show (bufRead d (length - stored) script).result = _ by
      rw [heq])
    rw [heq, copied] at hlen
    refine (ih (by omega) h).imp_right fun hn => ⟨hn.1, ?_⟩
    rw [← hn.2, length_append, hlen.1, add_assoc]
  | case6 stored d script hge =>
    cases h
    exact .inr ⟨by omega, rfl⟩

/-- A `dsi_stream_read` that has not failed has copied the bytes it was asked for. -/
theorem length_dsiStreamRead (h : (dsiStreamRead d length script).result = some n) :
    n = 0 ∨ n = length ∧ (dsiStreamRead d length script).data.length = n := by
  unfold dsiStreamRead at h ⊢
  split_ifs at h ⊢
  · cases h
    exact .inl rfl
  · have hloop := length_dsiStreamReadLoop (Nat.zero_le length) h
    rwa [Nat.zero_add] at hloop

/-! ### Runs -/

/-- The calls that read the input of a session. -/
inductive Op where
  | peek
  | bufferedRead (length : ℕ)
  | streamRead (length : ℕ)
  | receive
  | writeinit
  | write (buflen : ℕ)
  | writeflush
  | writedrain

/-- What a call copies, whether it has returned, and the session it leaves. -/
def Op.exec (d : Dsi) (script : List Answer) : Op → Out Unit
  | .peek => (dsiPeek script d).andThen fun _ d script => .ret () d script
  | .bufferedRead n => (dsiBufferedStreamRead d n script).andThen fun _ d script => .ret () d script
  | .streamRead n => (dsiStreamRead d n script).andThen fun _ d script => .ret () d script
  | .receive => (dsiStreamReceive d script).andThen fun _ d script => .ret () d script
  | .writeinit => (dsiWriteinit d script).andThen fun _ d script => .ret () d script
  | .write n => (dsiWrite d n script).andThen fun _ d script => .ret () d script
  | .writeflush => dsiWriteflush d script
  | .writedrain => dsiWritedrain d script

theorem takes_exec (op : Op) (script : List Answer) (hv : d.window.Valid) :
    Takes d (op.exec d script).data (op.exec d script).dsi := by
  have hret : ∀ {γ : Type} (_ : γ) (d : Dsi) (script : List Answer), d.window.Valid →
      Takes d (Out.ret () d script).data (Out.ret () d script).dsi :=
    fun _ _ _ hv => .of_eq hv rfl rfl
  cases op with
  | peek =>
    obtain ⟨hreads, hdata, _⟩ := reads_dsiPeek script hv
    exact Takes.andThen (hdata ▸ hreads.toTakes) hret
  | bufferedRead n => exact (takes_dsiBufferedStreamRead n script hv).andThen hret
  | streamRead n => exact (reads_dsiStreamRead n script hv).toTakes.andThen hret
  | receive => exact (takes_dsiStreamReceive script hv).andThen hret
  | writeinit => exact (takes_dsiWriteinit script hv).andThen hret
  | write n => exact (takes_dsiWrite n script hv).andThen hret
  | writeflush => exact takes_dsiWriteflushLoop _ script hv
  | writedrain => exact takes_dsiWritedrain script hv

/-- Calls one after the other, each with the answers the kernel gives it.  A call that waits in the
kernel is the last one to be seen. -/
def run : List (Op × List Answer) → Dsi → Out Unit
  | [], d => .ret () d []
  | (op, script) :: calls, d => (op.exec d script).andThen fun _ d _ => run calls d

theorem takes_run (calls : List (Op × List Answer)) (hv : d.window.Valid) :
    Takes d (run calls d).data (run calls d).dsi := by
  induction calls generalizing d with
  | nil => exact .of_eq hv rfl rfl
  | cons call calls ih =>
    apply (takes_exec call.1 call.2 hv).andThen
    intro _ d₁ _ hv
    exact ih hv

/-- A session whose read-ahead buffer has just been set up, on a socket over which the client sends
`stream`. -/
def dsiInitBuffer (buffer stream : List UInt8) (socket : ℤ) (serverQuantum : ℕ) : Dsi where
  window := ⟨buffer, 0, 0⟩
  net := stream
  socket := socket
  disconnected := false
  header := ⟨0, 0, 0, 0, 0⟩
  cmdlen := 0
  datasize := 0
  serverQuantum := serverQuantum

/-- Whatever calls are made and however the kernel answers them, the bytes copied to the callers or
dropped by a drain, then the unread bytes of the window, then the bytes not received yet are the
stream of the client, and the offsets stay in order inside the buffer. -/
theorem handed_unread_net (buffer stream : List UInt8) (socket : ℤ) (serverQuantum : ℕ)
    (calls : List (Op × List Answer)) :
    let o := run calls (dsiInitBuffer buffer stream socket serverQuantum)
    stream = o.data ++ (o.dsi.window.unread ++ o.dsi.net) ∧
      o.dsi.window.start ≤ o.dsi.window.eof ∧
      o.dsi.window.eof ≤ o.dsi.window.buffer.length ∧
      o.dsi.window.buffer.length = buffer.length := by
  have h : Takes (dsiInitBuffer buffer stream socket serverQuantum) _ _ :=
    takes_run calls ⟨le_rfl, zero_le⟩
  exact ⟨h.pending, h.valid.start_le, h.valid.eof_le, h.size⟩

end Netatalk.DsiStream
