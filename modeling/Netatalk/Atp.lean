import Mathlib

/-! # The ATP endpoint

`libatalk/atp` runs AppleTalk transactions over datagrams.  An endpoint keeps the answers to
exactly-once requests until a release or their release time (`sent`), the packets nobody has asked
for yet (`queue`), and one pending request with the packets of its response (`resppkt`).

The outside of a call is a `State`: what will happen on the socket (`script`), what each
`gettimeofday` reads, and which sends succeed.  A call that would wait for ever has no result.
Buffers are never short. -/

namespace Netatalk.Atp

/-! ### Packets -/

/-- `struct sockaddr_at`; a zero stands for any. -/
structure SockaddrAt where
  port : UInt8
  net : UInt16
  node : UInt8
deriving DecidableEq, Repr

/-- `at_addr_eq`: only the fields of the first that are not zero are compared. -/
def atAddrEq (paddr saddr : SockaddrAt) : Bool :=
  (paddr.port = 0 || paddr.port = saddr.port) && (paddr.net = 0 || paddr.net = saddr.net) &&
    (paddr.node = 0 || paddr.node = saddr.node)

@[simp] theorem atAddrEq_self (a : SockaddrAt) : atAddrEq a a = true := by
  simp [atAddrEq]

/-- An ATP packet without its DDP type: `struct atphdr` and the data. -/
structure Packet where
  ctrlinfo : BitVec 8
  bitmap : BitVec 8
  tid : BitVec 16
  data : List UInt8
deriving DecidableEq, Repr

def atpTrelmask : BitVec 8 := 0x07
def atpSts : BitVec 8 := 0x08
def atpEom : BitVec 8 := 0x10
def atpXo : BitVec 8 := 0x20
def atpFuncmask : BitVec 8 := 0xc0
def atpTreq : BitVec 8 := 0x40
def atpTresp : BitVec 8 := 0x80
def atpTrel : BitVec 8 := 0xc0
def atpFuncany : BitVec 8 := atpTreq ||| atpTresp ||| atpTrel
def atpTidany : BitVec 16 := 0xffff

def atpMaxdata : ℕ := 582
def atpMaxqueue : ℕ := 8
def atpMaxresp : ℕ := 8
def atpReltime : ℤ := 30
def atpTriesInfinite : ℤ := -1

def ddptypeAtp : UInt8 := 3

/-- The function bits of a packet. -/
def Packet.func (p : Packet) : BitVec 8 := p.ctrlinfo &&& atpFuncmask

/-- The flag is set in the control information. -/
def Packet.has (p : Packet) (flag : BitVec 8) : Bool := p.ctrlinfo &&& flag ≠ 0

/-- The packet in a datagram, if it is long enough and of the ATP type. -/
def atpPacket : List UInt8 → Option Packet
  | type :: ctrlinfo :: bitmap :: hi :: lo :: data =>
    if type = ddptypeAtp then
      some ⟨ctrlinfo.toBitVec, bitmap.toBitVec, hi.toBitVec ++ lo.toBitVec, data⟩
    else none
  | _ => none

/-! ### State -/

/-- A saved answer, `struct atpxobuf` with its address. -/
structure Saved where
  addr : SockaddrAt
  tid : BitVec 16
  tv : ℤ
  reltime : ℤ
  packets : List Packet
deriving DecidableEq, Repr

/-- `struct atp_handle`. -/
structure Handle where
  tid : BitVec 16
  rtid : BitVec 16
  rxo : Bool
  rreltime : ℤ
  sent : List Saved
  queue : List (SockaddrAt × Packet)
  reqtries : ℤ
  reqto : ℤ
  rrespcount : ℤ
  rbitmap : BitVec 8
  reqpkt : Option (SockaddrAt × Packet)
  reqtv : ℤ
  resppkt : Fin 8 → Option Packet

/-- The endpoint that `atp_open` makes; it takes the first transaction ID from the time and the
process ID. -/
def atpOpen (tid : BitVec 16) : Handle where
  tid := tid
  rtid := 0
  rxo := false
  rreltime := 0
  sent := []
  queue := []
  reqtries := 0
  reqto := -1
  rrespcount := 0
  rbitmap := 0
  reqpkt := none
  reqtv := 0
  resppkt := fun _ => none

/-- What happens next on the socket. -/
inductive Event where
  | datagram (sender : SockaddrAt) (bytes : List UInt8)
  /-- Nothing arrives for as long as the request's timeout. -/
  | timeout
  | interrupted
  | failed
deriving DecidableEq, Repr

/-- The clock by the number of readings, the success of sends by their number, and what was
given to `netddp_sendto`. -/
structure Net where
  clock : ℕ → ℤ
  reads : ℕ
  sends : ℕ → Bool
  out : List (SockaddrAt × Packet)

structure State where
  ah : Handle
  net : Net
  script : List Event

inductive Errno where
  | eintr | etimedout | einval | emsgsize | eio
deriving DecidableEq, Repr

/-- What the next `gettimeofday` reads, in seconds. -/
def State.now (s : State) : ℤ := s.net.clock s.net.reads

def State.read (s : State) : State := { s with net := { s.net with reads := s.net.reads + 1 } }

/-- `netddp_sendto` of a whole packet, and whether it succeeds. -/
def State.sendto (s : State) (addr : SockaddrAt) (p : Packet) : Bool × State :=
  (s.net.sends s.net.out.length, { s with net := { s.net with out := s.net.out ++ [(addr, p)] } })

/-! ### Receiving -/

/-- `atp_queue_push`: in front, and a full queue loses its oldest packet. -/
def atpQueuePush (queue : List (SockaddrAt × Packet)) (buf : SockaddrAt × Packet) :
    List (SockaddrAt × Packet) :=
  if atpMaxqueue ≤ queue.length then buf :: queue.dropLast else buf :: queue

/-- The call asked for such a packet. -/
def accepts (fromaddr : SockaddrAt) (func : BitVec 8) (tid : BitVec 16)
    (buf : SockaddrAt × Packet) : Bool :=
  buf.2.func ≠ 0 && tid &&& buf.2.tid = buf.2.tid && func &&& buf.2.func = buf.2.func &&
    atAddrEq fromaddr buf.1

/-- The saved answer is the one a release is for. -/
def Saved.isFor (sender : SockaddrAt) (tid : BitVec 16) (e : Saved) : Bool :=
  atAddrEq sender e.addr && e.tid = tid

/-- One turn of the loop of `atp_recv_atp`: the packet, if it was asked for. -/
def recvDatagram (fromaddr : SockaddrAt) (func : BitVec 8) (tid : BitVec 16) (ah : Handle)
    (sender : SockaddrAt) (bytes : List UInt8) : Option Packet × Handle :=
  match atpPacket bytes with
  | none => (none, ah)
  | some p =>
    if p.func = 0 then (none, ah)
    else if p.func = atpTrel then
      (none, { ah with sent := ah.sent.eraseP (Saved.isFor sender p.tid) })
    else if accepts fromaddr func tid (sender, p) then (some p, ah)
    else (none, { ah with queue := atpQueuePush ah.queue (sender, p) })

/-- The answer of `atp_recv_atp`. -/
inductive Recv where
  | got (sender : SockaddrAt) (p : Packet)
  | nothing
  | error (e : Errno)
deriving DecidableEq, Repr

/-- The loop of `atp_recv_atp` over the socket.  The read waits through a timeout. -/
def recvSocket (fromaddr : SockaddrAt) (func : BitVec 8) (tid : BitVec 16) (wait : Bool) :
    List Event → State → Option (Recv × State)
  | [], _ => none
  | .timeout :: script, s => recvSocket fromaddr func tid wait script s
  | .interrupted :: script, s => some (.error .eintr, { s with script := script })
  | .failed :: script, s => some (.error .eio, { s with script := script })
  | .datagram sender bytes :: script, s =>
    match recvDatagram fromaddr func tid s.ah sender bytes with
    | (some p, ah) => some (.got sender p, { s with ah := ah, script := script })
    | (none, ah) =>
      if wait then recvSocket fromaddr func tid wait script { s with ah := ah }
      else some (.nothing, { s with ah := ah, script := script })

/-- `atp_recv_atp`: from the queue, or else from the socket. -/
def atpRecvAtp (fromaddr : SockaddrAt) (func : BitVec 8) (tid : BitVec 16) (wait : Bool)
    (s : State) : Option (Recv × State) :=
  match s.ah.queue.find? (accepts fromaddr func tid) with
  | some (sender, p) =>
    let queue := s.ah.queue.eraseP (accepts fromaddr func tid)
    some (.got sender p, { s with ah := { s.ah with queue := queue } })
  | none => recvSocket fromaddr func tid wait s.script s

/-! ### `atp_rsel` -/

/-- `resend_request`. -/
def resendRequest (s : State) : Bool × State :=
  match s.ah.reqpkt with
  | none => (false, s)
  | some (addr, req) =>
    let req := { req with bitmap := s.ah.rbitmap }
    let s := { s.read with ah := { s.ah with reqpkt := some (addr, req), reqtv := s.now } }
    let (ok, s) := s.sendto addr req
    if ok && decide (0 < s.ah.reqtries) then
      (ok, { s with ah := { s.ah with reqtries := s.ah.reqtries - 1 } })
    else (ok, s)

/-- There are tries left. -/
def Handle.triesLeft (ah : Handle) : Bool := 0 < ah.reqtries || ah.reqtries = atpTriesInfinite

/-- The loop of `atp_rsel` while a request is pending: `select`, and a read once the socket is
readable. -/
def selectLoop (faddr : SockaddrAt) (func : BitVec 8) : List Event → State → Option (Recv × State)
  | [], _ => none
  | .interrupted :: script, s => some (.error .eintr, { s with script := script })
  | .failed :: script, s => some (.error .eio, { s with script := script })
  | .timeout :: script, s =>
    if s.ah.triesLeft then
      match resendRequest s with
      | (true, s) => selectLoop faddr func script s
      | (false, s) => some (.error .eio, { s with script := script })
    else some (.error .etimedout, { s with script := script })
  | .datagram sender bytes :: script, s =>
    atpRecvAtp faddr func atpTidany false { s with script := .datagram sender bytes :: script }

/-- A request is pending that the call waits for. -/
def requesting (func : BitVec 8) (ah : Handle) : Bool :=
  func &&& atpTresp ≠ 0 && 0 < ah.rrespcount && ah.triesLeft

/-- The first half of `atp_rsel`: what it receives. -/
def rselRecv (faddr : SockaddrAt) (func : BitVec 8) (s : State) : Option (Recv × State) :=
  if requesting func s.ah then
    if s.now - s.ah.reqtv > s.ah.reqto then
      match resendRequest s.read with
      | (true, s) => selectLoop faddr func s.script s
      | (false, s) => some (.error .eio, s)
    else selectLoop faddr func s.script s.read
  else atpRecvAtp faddr func atpTidany false s

/-- The release time of the answer has run out. -/
def Saved.expired (now : ℤ) (e : Saved) : Bool := now - e.tv > e.reltime

/-- The walk of `atp_rsel` over the saved answers: the one that the request asks for again, and the
list without those that it found expired; `pb` says that an entry has been passed.  With none
passed, an expired entry ends the walk. -/
def findDuplicate (now : ℤ) (saddr : SockaddrAt) (tid : BitVec 16) :
    Bool → List Saved → Option Saved × List Saved
  | _, [] => (none, [])
  | pb, cb :: next =>
    if cb.expired now then
      if pb then findDuplicate now saddr tid pb next else (none, next)
    else if cb.isFor saddr tid then (some cb, { cb with tv := now } :: next)
    else
      let (found, sent) := findDuplicate now saddr tid true next
      (found, cb :: sent)

/-- The packets that the bitmap names. -/
def named (bitmap : BitVec 8) (packets : List Packet) : List Packet :=
  (packets.zipIdx.filter fun q => bitmap.getLsbD q.2).map Prod.fst

/-- What `atp_rsel` and the calls over it return. -/
inductive Rc where
  | zero | treq | tresp
  | error (e : Errno)
deriving DecidableEq, Repr

/-- `atp_rsel` has got a request. -/
def rselRequest (faddr saddr : SockaddrAt) (p : Packet) (s : State) : Rc × SockaddrAt × State :=
  match findDuplicate s.now saddr p.tid false s.ah.sent with
  | (some cb, sent) =>
    let out := s.net.out ++ (named p.bitmap cb.packets).map (saddr, ·)
    let s := s.read
    (.zero, faddr, { s with ah := { s.ah with sent := sent }, net := { s.net with out := out } })
  | (none, sent) =>
    let queue := atpQueuePush s.ah.queue (saddr, p)
    (.treq, saddr, { s.read with ah := { s.ah with sent := sent, queue := queue } })

/-- `atp_resp_incomplete`. -/
def atpRespIncomplete (ah : Handle) : Rc := if ah.triesLeft then .zero else .error .etimedout

/-- Bits of a response that ends with packet `seq`. -/
def upTo (seq : ℕ) : BitVec 8 := BitVec.ofNat 8 (2 ^ seq ||| (2 ^ seq - 1))

/-- The response packet fills its slot. -/
def acceptResponse (ah : Handle) (p : Packet) (seq : Fin 8) : Handle :=
  let rbitmap := ah.rbitmap &&& ~~~(BitVec.ofNat 8 (2 ^ seq.val))
  { ah with
    resppkt := Function.update ah.resppkt seq (some p)
    rbitmap := if p.has atpEom then rbitmap &&& upTo seq else rbitmap }

/-- The release for the request, which takes its place. -/
def sendTrel (addr : SockaddrAt) (req : Packet) (s : State) : State :=
  let req := { req with ctrlinfo := atpTrel, data := [0, 0, 0, 0] }
  (({ s with ah := { s.ah with reqpkt := some (addr, req) } } : State).sendto addr req).2

/-- The end of `atp_rsel`: a complete response to an exactly-once request is released. -/
def rselComplete (faddr saddr addr : SockaddrAt) (req : Packet) (s : State) :
    Rc × SockaddrAt × State :=
  if s.ah.rbitmap = 0 then (.tresp, saddr, if req.has atpXo then sendTrel addr req s else s)
  else (atpRespIncomplete s.ah, faddr, s)

/-- `atp_rsel` has got a response. -/
def rselResponse (requesting : Bool) (faddr saddr : SockaddrAt) (p : Packet) (s : State) :
    Rc × SockaddrAt × State :=
  match s.ah.reqpkt with
  | none => (atpRespIncomplete s.ah, faddr, s)
  | some (addr, req) =>
    if h : p.bitmap.toNat < atpMaxresp then
      if requesting && s.ah.rbitmap.getLsbD p.bitmap.toNat && req.tid = p.tid then
        let s := { s with ah := acceptResponse s.ah p ⟨p.bitmap.toNat, h⟩ }
        if p.has atpSts then
          let req := { req with bitmap := s.ah.rbitmap }
          let s := { s with ah := { s.ah with reqpkt := some (addr, req) } }
          match s.sendto addr req with
          | (true, s) => rselComplete faddr saddr addr req s
          | (false, s) => (.error .eio, faddr, s)
        else rselComplete faddr saddr addr req s
      else rselComplete faddr saddr addr req s
    else (atpRespIncomplete s.ah, faddr, s)

/-- What `atp_rsel` does with what it has received. -/
def rselTake (pending : Bool) (faddr : SockaddrAt) : Recv × State → Rc × SockaddrAt × State
  | (.error e, s) => (.error e, faddr, s)
  | (.nothing, s) => (.zero, faddr, s)
  | (.got saddr p, s) =>
    if p.func = atpTreq then rselRequest faddr saddr p s
    else rselResponse pending faddr saddr p s

/-- `atp_rsel` for the given functions: the return code, the address in `faddr` and the state. -/
def rselFunc (faddr : SockaddrAt) (func : BitVec 8) (s : State) :
    Option (Rc × SockaddrAt × State) :=
  if requesting func s.ah && s.ah.rbitmap = 0 then some (.tresp, faddr, s)
  else (rselRecv faddr func s).map (rselTake (requesting func s.ah) faddr)

/-- `atp_rsel`. -/
def atpRsel (faddr : SockaddrAt) (func : BitVec 8) (s : State) :
    Option (Rc × SockaddrAt × State) :=
  rselFunc faddr (if func = 0 then atpFuncany else func) s

/-! ### The calls -/

/-- The parameters of a request in `struct atp_block`. -/
structure Sreq where
  saddr : SockaddrAt
  sreqdata : List UInt8
  sreqto : ℤ
  sreqtries : ℤ

/-- `atp_sreq`. -/
def atpSreq (atpb : Sreq) (respcount : ℤ) (flags : BitVec 8) (s : State) :
    Except Errno Unit × State :=
  if atpb.sreqdata.length < 4 ∨ atpMaxdata < atpb.sreqdata.length ∨ respcount < 0 ∨ 8 < respcount ∨
      atpb.sreqto < 0 ∨ (atpb.sreqtries < 1 ∧ atpb.sreqtries ≠ atpTriesInfinite) then
    (.error .einval, s)
  else
    let bitmap := BitVec.ofNat 8 (2 ^ respcount.toNat - 1)
    let req : Packet := ⟨flags ||| atpTreq, bitmap, s.ah.tid, atpb.sreqdata⟩
    let ah := { s.ah with resppkt := fun _ => none, tid := s.ah.tid + 1, reqtv := s.now }
    match ({ s.read with ah := ah } : State).sendto atpb.saddr req with
    | (false, s) => (.error .eio, s)
    | (true, s) =>
      if atpb.sreqto ≠ 0 then
        (.ok (), { s with ah := { s.ah with
          reqto := atpb.sreqto
          -- one has been sent
          reqtries := if atpb.sreqtries = atpTriesInfinite then atpTriesInfinite
            else atpb.sreqtries - 1
          reqpkt := some (atpb.saddr, req)
          rbitmap := bitmap
          rrespcount := respcount } })
      else (.ok (), { s with ah := { s.ah with rrespcount := 0 } })

/-- The loop of `atp_rresp`; what `atp_rsel` accepts from is only changed at the end. -/
def rrespLoop (saddr : SockaddrAt) : ℕ → State → Option (Rc × SockaddrAt × State)
  | 0, _ => none
  | fuel + 1, s => do
      match ← atpRsel saddr atpTresp s with
      | (.zero, _, s) => rrespLoop saddr fuel s
      | r => return r

/-- The packets handed out and the slots left, for a vector with room for the given lengths. -/
def handOut :
    List (Option Packet) → List ℕ → Except Errno (List (List UInt8)) × List (Option Packet)
  | [], _ => (.ok [], [])
  | none :: slots, _ => (.ok [], none :: slots)
  | some p :: slots, [] => (.error .emsgsize, some p :: slots)
  | some p :: slots, room :: iov =>
    if room < p.data.length then (.error .emsgsize, some p :: slots)
    else
      let (data, slots) := handOut slots iov
      (data.map (p.data :: ·), none :: slots)

/-- `atp_rresp`, for a vector with room for the given lengths: the data of the packets.  A turn of
its loop takes a packet from the queue or reads at least one event, and leaves at most one packet in
the queue. -/
def atpRresp (saddr : SockaddrAt) (iov : List ℕ) (s : State) :
    Option (Except Errno (List (List UInt8)) × State) :=
  if iov.length = 0 ∨ 8 < iov.length then some (.error .einval, s)
  else do
    match ← rrespLoop saddr (2 * s.script.length + s.ah.queue.length + 1) s with
    | (.tresp, _, s) =>
      let (data, slots) := handOut (List.ofFn s.ah.resppkt) iov
      return (data, { s with ah := { s.ah with resppkt := fun i => (slots[i.val]?).join } })
    | (.error e, _, s) => return (.error e, s)
    | (_, _, s) => return (.error .eio, s)

/-- What `atp_rreq_try` finds. -/
inductive Rreq where
  | request (sender : SockaddrAt) (data : List UInt8) (bitmap : BitVec 8)
  | nothing
  | error (e : Errno)
deriving DecidableEq, Repr

/-- The endpoint remembers the request that was taken. -/
def Handle.remember (ah : Handle) (p : Packet) : Handle :=
  { ah with
    rtid := p.tid
    rxo := p.has atpXo
    rreltime := if p.has atpXo then atpReltime * 2 ^ (p.ctrlinfo &&& atpTrelmask).toNat
      else ah.rreltime }

/-- `atp_rreq_try`, for a buffer with room for `dlen` bytes. -/
def atpRreqTry (saddr : SockaddrAt) (dlen : ℕ) (s : State) : Option (Rreq × State) := do
  match ← atpRsel saddr atpTreq s with
  | (.zero, _, s) => return (.nothing, s)
  | (.treq, faddr, s) =>
    match ← atpRecvAtp faddr atpTreq atpTidany true s with
    | (.got sender p, s) =>
      let s := { s with ah := s.ah.remember p }
      return if dlen < p.data.length then (.error .emsgsize, s)
        else (.request sender p.data p.bitmap, s)
    | (.error e, s) => return (.error e, s)
    | (.nothing, s) => return (.nothing, s)
  | (.tresp, _, s) => return (.error .eio, s)
  | (.error e, _, s) => return (.error e, s)

/-- Sends one after the other, up to the first that fails. -/
def sendAll (addr : SockaddrAt) : List Packet → State → Bool × State
  | [], s => (true, s)
  | p :: packets, s =>
    match s.sendto addr p with
    | (true, s) => sendAll addr packets s
    | (false, s) => (false, s)

/-- The packets of a response: the last one carries the end of message. -/
def respPackets (tid : BitVec 16) (iov : List (List UInt8)) : List Packet :=
  iov.zipIdx.map fun d =>
    ⟨if d.2 + 1 = iov.length then atpTresp ||| atpEom else atpTresp, BitVec.ofNat 8 d.2, tid, d.1⟩

/-- `atp_sresp`. -/
def atpSresp (saddr : SockaddrAt) (iov : List (List UInt8)) (s : State) :
    Except Errno Unit × State :=
  if iov.any (atpMaxdata < ·.length) ∨ iov.length < 1 ∨ 8 < iov.length then (.error .einval, s)
  else
    let packets := respPackets s.ah.rtid iov
    match sendAll saddr packets s with
    | (false, s) => (.error .eio, s)
    | (true, s) =>
      if s.ah.rxo then
        let save : Saved := ⟨saddr, s.ah.rtid, s.now, s.ah.rreltime, packets⟩
        (.ok (), { s.read with ah := { s.ah with sent := save :: s.ah.sent } })
      else (.ok (), s)

end Netatalk.Atp
