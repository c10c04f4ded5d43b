import Netatalk.Atp

/-! # Assembling a response

`atp_sreq` sends a request and `atp_rresp` collects the packets of its response in any order.  While
tries are left, each call of `atp_rsel` either passes over a packet that is not a missing part of
the response, or puts one in its slot (`Waiting`, `rselFunc_waiting`), until nothing is missing.
With a try count of 1 no try is left after `atp_sreq`, and `atp_rsel` then takes no part at all. -/

namespace Netatalk.Atp

open List Option Function

/-! ### The response -/

/-- The packet is a response to the transaction, from where it is expected. -/
structure Mine (saddr : SockaddrAt) (tid : BitVec 16) (sender : SockaddrAt) (p : Packet) :
    Prop where
  func : p.func = atpTresp
  addr : atAddrEq saddr sender = true
  tid : p.tid = tid

/-- The packet is a part of the response: it carries the data at its sequence number, and the end of
message is on the last part at most, and on it if fewer come than expected. -/
structure IsPart (resp : List (List UInt8)) (respcount : ℤ) (p : Packet) : Prop where
  data : resp[p.bitmap.toNat]? = some p.data
  eom : p.has atpEom = true → p.bitmap.toNat + 1 = resp.length
  last : p.bitmap.toNat + 1 = resp.length → (resp.length : ℤ) < respcount → p.has atpEom = true

/-! ### Bits -/

theorem getLsbD_upTo : ∀ seq i : Fin 8, (upTo seq).getLsbD i = decide (i ≤ seq) := by
  decide

theorem getLsbD_two_pow : ∀ seq i : Fin 8,
    (BitVec.ofNat 8 (2 ^ seq.val)).getLsbD i = decide (i = seq) := by
  decide

theorem getLsbD_below : ∀ (n : Fin 9) (i : Fin 8),
    (BitVec.ofNat 8 (2 ^ n.val - 1)).getLsbD i = decide (i.val < n.val) := by
  decide

theorem eq_zero_iff (b : BitVec 8) : b = 0 ↔ ∀ i : Fin 8, b.getLsbD i = false := by
  constructor
  · rintro rfl i
    exact BitVec.getLsbD_zero
  · intro h
    apply BitVec.eq_of_getLsbD_eq
    intro i hi
    rw [h ⟨i, hi⟩]
    exact BitVec.getLsbD_zero.symm

theorem getLsbD_acceptResponse (ah : Handle) (p : Packet) (seq i : Fin 8) :
    (acceptResponse ah p seq).rbitmap.getLsbD i =
      (ah.rbitmap.getLsbD i && decide (i ≠ seq) && (!p.has atpEom || decide (i ≤ seq))) := by
  have htwo := getLsbD_two_pow seq i
  have hup := getLsbD_upTo seq i
  rw [acceptResponse]
  split_ifs with heom
  · simp only [BitVec.getLsbD_and, BitVec.getLsbD_not, htwo, hup, i.isLt, decide_true,
      Bool.true_and, heom, Bool.not_true, Bool.false_or, decide_not]
  · simp only [BitVec.getLsbD_and, BitVec.getLsbD_not, htwo, i.isLt, decide_true, Bool.true_and,
      Bool.not_eq_true _ ▸ heom, Bool.not_false, Bool.true_or, Bool.and_true, decide_not]

variable {addr saddr : SockaddrAt} {tid : BitVec 16}

/-- A call for responses accepts nothing else. -/
theorem func_of_accepts {b : SockaddrAt × Packet} (h : accepts saddr atpTresp tid b = true) :
    b.2.func = atpTresp ∧ atAddrEq saddr b.1 = true := by
  simp only [accepts, Bool.and_eq_true, decide_eq_true_eq] at h
  obtain ⟨⟨⟨hne, -⟩, hfunc⟩, haddr⟩ := h
  refine ⟨?_, haddr⟩
  have hbits : ∀ c : BitVec 8, c &&& atpFuncmask ≠ 0 →
      atpTresp &&& (c &&& atpFuncmask) = c &&& atpFuncmask → c &&& atpFuncmask = atpTresp := by
    decide
  exact hbits _ hne hfunc

variable {a sender : SockaddrAt} {d : Arrival} {fuel : ℕ} {p req : Packet} {rc : Rc} {s' : State}
  {script : List Event}

theorem accepts_of_mine (h : Mine saddr tid sender p) :
    accepts saddr atpTresp atpTidany (sender, p) = true := by
  have htid : atpTidany &&& p.tid = p.tid := BitVec.allOnes_and
  simp only [accepts, h.func, h.addr, htid]
  decide

/-! ### Waiting for it -/

/-- What `atp_rsel` makes of a datagram. -/
abbrev Arrival := SockaddrAt × List UInt8

section
variable (saddr : SockaddrAt) (tid : BitVec 16) (resp : List (List UInt8)) (respcount : ℤ)

/-- What is left of the response comes with the arrivals, and the packets in the slots are parts of
it.  While the last part is missing, so may be packets behind it. -/
structure Waiting (arr : List Arrival) (s : State) : Prop where
  reqpkt : ∃ addr req, s.ah.reqpkt = some (addr, req) ∧ req.tid = tid
  count : 0 < s.ah.rrespcount
  tries : s.ah.triesLeft = true
  sends : ∀ k, s.net.sends k = true
  slots : ∀ i p, s.ah.resppkt i = some p → resp[i.val]? = some p.data
  low : ∀ i : Fin 8, i.val < resp.length → (s.ah.rbitmap.getLsbD i = true ↔ s.ah.resppkt i = none)
  high : ∀ i j : Fin 8, resp.length ≤ i.val → j.val + 1 = resp.length →
    s.ah.rbitmap.getLsbD i = true →
    s.ah.rbitmap.getLsbD j = true ∧ (resp.length : ℤ) < respcount
  queue : ∀ b ∈ s.ah.queue, ¬Mine saddr tid b.1 b.2
  script : ∃ rest, s.script = arr.map (fun d => .datagram d.1 d.2) ++ rest
  parts : ∀ d ∈ arr, ∀ p, atpPacket d.2 = some p → Mine saddr tid d.1 p → IsPart resp respcount p
  missing : ∀ i : Fin 8, i.val < resp.length → s.ah.resppkt i = none →
    ∃ d ∈ arr, ∃ p, atpPacket d.2 = some p ∧ Mine saddr tid d.1 p ∧ p.bitmap.toNat = i.val
  clock : ∀ k, s.net.reads ≤ k →
    k < s.net.reads + (s.ah.queue.countP (accepts saddr atpTresp atpTidany) + arr.length) →
    s.net.clock k - s.ah.reqtv ≤ s.ah.reqto

/-- Every slot holds its part. -/
def Complete (ah : Handle) : Prop := ∀ i : Fin 8, (ah.resppkt i).map Packet.data = resp[i.val]?

end

section
variable {saddr : SockaddrAt} {tid : BitVec 16} {resp : List (List UInt8)} {respcount : ℤ}
  {arr : List Arrival} {s : State}

section
variable (h : Waiting saddr tid resp respcount arr s)
include h

/-- While a bit is set, a part is missing. -/
theorem Waiting.exists_missing (hresp : resp ≠ []) (hlen : resp.length ≤ 8) (hb : s.ah.rbitmap ≠ 0)
    : ∃ i : Fin 8, i.val < resp.length ∧ s.ah.resppkt i = none := by
  obtain ⟨i, hi⟩ : ∃ i : Fin 8, s.ah.rbitmap.getLsbD i = true := by
    by_contra hno
    exact hb ((eq_zero_iff _).mpr fun i => by simpa using fun hi => hno ⟨i, hi⟩)
  have hpos := length_pos_iff.mpr hresp
  by_cases hlt : i.val < resp.length
  · exact ⟨i, hlt, (h.low i hlt).mp hi⟩
  · let j : Fin 8 := ⟨resp.length - 1, by omega⟩
    have hj : j.val + 1 = resp.length := Nat.sub_add_cancel hpos
    exact ⟨j, by omega, (h.low j (by omega)).mp (h.high i j (by omega) hj hi).1⟩

theorem Waiting.complete (hb : s.ah.rbitmap = 0) : Complete resp s.ah := by
  intro i
  rw [eq_zero_iff] at hb
  cases hslot : s.ah.resppkt i with
  | none =>
    -- a missing part has its bit set
    rw [map_none, eq_comm, List.getElem?_eq_none_iff]
    by_contra hlt
    have hset := (h.low i (by omega)).mpr hslot
    rw [hb i] at hset
    cases hset
  | some p => rw [map_some, h.slots i p hslot]

theorem Waiting.isRequesting : requesting atpTresp s.ah = true := by
  have hfunc : ¬atpTresp = 0#8 := by decide
  simp [requesting, hfunc, h.count, h.tries]

end

/-- In time, the call reads the next packet that it accepts. -/
theorem Waiting.rselRecv_eq (h : Waiting saddr tid resp respcount (d :: arr) s) :
    rselRecv saddr atpTresp s = atpRecvAtp saddr atpTresp atpTidany false s.read := by
  obtain ⟨rest, hscript⟩ := h.script
  have hintime : ¬s.now - s.ah.reqtv > s.ah.reqto :=
    (h.clock _ le_rfl (by rw [length_cons]; omega)).not_gt
  rw [map_cons, cons_append] at hscript
  rw [rselRecv, h.isRequesting, if_neg hintime, hscript, selectLoop, ← hscript]
  rfl

/-- A packet is passed over that is no part, or one that is there already. -/
theorem Waiting.pass (h : Waiting saddr tid resp respcount arr s) {arr' : List Arrival}
    {queue : List (SockaddrAt × Packet)} {sent : List Saved}
    (hqueue : ∀ b ∈ queue, ¬Mine saddr tid b.1 b.2)
    (hscript : ∃ rest, script = arr'.map (fun d => .datagram d.1 d.2) ++ rest)
    (hsub : ∀ d ∈ arr', d ∈ arr)
    (hrest : ∀ d ∈ arr, ∀ p, atpPacket d.2 = some p → Mine saddr tid d.1 p →
      d ∈ arr' ∨ ∀ i : Fin 8, p.bitmap.toNat = i.val → s.ah.resppkt i ≠ none)
    (hless : queue.countP (accepts saddr atpTresp atpTidany) + arr'.length <
      s.ah.queue.countP (accepts saddr atpTresp atpTidany) + arr.length) :
    Waiting saddr tid resp respcount arr'
      ⟨{ s.ah with queue := queue, sent := sent }, s.read.net, script⟩ := by
  refine { h with
    queue := hqueue, script := hscript, parts := fun d hd => h.parts d (hsub d hd)
    missing := fun i hi hnone => ?_, clock := fun k hk hk' => ?_ }
  · obtain ⟨d, hd, p, hp, hmine, hseq⟩ := h.missing i hi hnone
    exact ⟨d, (hrest d hd p hp hmine).resolve_right fun hno => hno i hseq hnone, p, hp, hmine, hseq⟩
  · have hreads : s.read.net.reads = s.net.reads + 1 := rfl
    dsimp only at hk hk'
    exact h.clock k (by omega) (by omega)

/-- A response that the call does not expect is tossed. -/
theorem rselTake_toss {faddr sender addr : SockaddrAt} {req p : Packet}
    (hreq : s.ah.reqpkt = some (addr, req)) (hb : s.ah.rbitmap ≠ 0) (htries : s.ah.triesLeft = true)
    (hfunc : p.func = atpTresp)
    (hno : ¬(s.ah.rbitmap.getLsbD p.bitmap.toNat = true ∧ req.tid = p.tid)) :
    rselTake true faddr (.got sender p, s) = (.zero, faddr, s) := by
  have hne : atpTresp ≠ atpTreq := by decide
  have hcond :
      (true && s.ah.rbitmap.getLsbD p.bitmap.toNat && decide (req.tid = p.tid)) = false := by
    rw [← Bool.not_eq_true, Bool.and_eq_true, decide_eq_true_eq]
    exact hno
  simp only [rselTake, hfunc, if_neg hne, rselResponse, hreq, hcond, Bool.false_eq_true, if_false,
    rselComplete, hb, atpRespIncomplete, htries, if_true, dite_eq_ite, ite_self]

/-- The state with another request packet and more sent. -/
def State.resent (s : State) (addr : SockaddrAt) (req : Packet) (out : List (SockaddrAt × Packet)) :
    State :=
  ⟨{ s.ah with reqpkt := some (addr, req) }, { s.net with out := out }, s.script⟩

theorem State.eq_resent (hreq : s.ah.reqpkt = some (addr, req)) :
    s = s.resent addr req s.net.out := by
  rw [State.resent, ← hreq]

theorem rselComplete_spec {req : Packet} (faddr sender : SockaddrAt)
    (hreq : s.ah.reqpkt = some (addr, req)) (htries : s.ah.triesLeft = true) :
    ∃ a req' out, rselComplete faddr sender addr req s =
        (if s.ah.rbitmap = 0 then .tresp else .zero, a, s.resent addr req' out) ∧
      req'.tid = req.tid := by
  unfold rselComplete
  split_ifs with hb hxo
  · exact ⟨_, _, _, rfl, rfl⟩
  · exact ⟨_, req, s.net.out, by rw [← s.eq_resent hreq], rfl⟩
  · refine ⟨faddr, req, s.net.out, ?_, rfl⟩
    rw [atpRespIncomplete, htries, if_pos rfl, ← s.eq_resent hreq]

/-- A response that the call expects fills its slot. -/
theorem rselTake_accept {req p : Packet} (faddr sender : SockaddrAt)
    (hreq : s.ah.reqpkt = some (addr, req)) (hsends : ∀ k, s.net.sends k = true)
    (htries : s.ah.triesLeft = true) (hfunc : p.func = atpTresp) (hlt : p.bitmap.toNat < 8)
    (hbit : s.ah.rbitmap.getLsbD p.bitmap.toNat = true) (htid : req.tid = p.tid) :
    ∃ a req' out, rselTake true faddr (.got sender p, s) =
        (if (acceptResponse s.ah p ⟨p.bitmap.toNat, hlt⟩).rbitmap = 0 then .tresp else .zero, a,
          ({ s with ah := acceptResponse s.ah p ⟨p.bitmap.toNat, hlt⟩ } : State).resent addr req'
            out) ∧
      req'.tid = p.tid := by
  have hne : atpTresp ≠ atpTreq := by decide
  have hmax : p.bitmap.toNat < atpMaxresp := hlt
  have htake : rselTake true faddr (.got sender p, s) = rselResponse true faddr sender p s := by
    rw [rselTake, hfunc, if_neg hne]
  have hcond :
      (true && s.ah.rbitmap.getLsbD p.bitmap.toNat && decide (req.tid = p.tid)) = true := by
    rw [hbit, decide_eq_true htid]
    rfl
  rw [htake, rselResponse, hreq]
  dsimp only
  rw [dif_pos hmax, if_pos hcond]
  split
  · -- the request goes out again, with the bits that are left
    let req₁ := { req with bitmap := (acceptResponse s.ah p ⟨p.bitmap.toNat, hlt⟩).rbitmap }
    let s₁ := ({ s with ah := acceptResponse s.ah p ⟨p.bitmap.toNat, hlt⟩ } : State).resent addr
      req₁ (s.net.out ++ [(addr, req₁)])
    obtain ⟨a, req', out, hcomplete, hreq'⟩ :=
      @rselComplete_spec addr s₁ req₁ faddr sender rfl htries
    refine ⟨a, req', out, ?_, hreq'.trans htid⟩
    simp only [State.sendto, hsends]
    exact hcomplete
  · obtain ⟨a, req', out, hcomplete, hreq'⟩ := @rselComplete_spec addr
      { s with ah := acceptResponse s.ah p ⟨p.bitmap.toNat, hlt⟩ } req faddr sender hreq htries
    exact ⟨a, req', out, hcomplete, hreq'.trans htid⟩

/-- A part that was missing is taken. -/
theorem Waiting.accept (h : Waiting saddr tid resp respcount (d :: arr) s)
    (hp : atpPacket d.2 = some p) (hmine : Mine saddr tid d.1 p)
    (hlt : p.bitmap.toNat < 8) (addr : SockaddrAt) (htid : req.tid = tid)
    (out : List (SockaddrAt × Packet))
    (hscript : ∃ rest, script = arr.map (fun d => .datagram d.1 d.2) ++ rest) :
    Waiting saddr tid resp respcount arr
      ((⟨acceptResponse s.ah p ⟨p.bitmap.toNat, hlt⟩, s.read.net, script⟩ : State).resent addr req
        out) := by
  have hpart := h.parts d mem_cons_self p hp hmine
  have hbits := getLsbD_acceptResponse s.ah p ⟨p.bitmap.toNat, hlt⟩
  set ah := acceptResponse s.ah p ⟨p.bitmap.toNat, hlt⟩
  have hslots : ah.resppkt = update s.ah.resppkt ⟨p.bitmap.toNat, hlt⟩ (some p) := rfl
  have hseq : p.bitmap.toNat < resp.length := (List.getElem?_eq_some_iff.mp hpart.data).1
  constructor
  case reqpkt => exact ⟨addr, req, rfl, htid⟩
  case count => exact h.count
  case tries => exact h.tries
  case sends => exact h.sends
  case queue => exact h.queue
  case script => exact hscript
  case parts => exact fun d' hd' => h.parts d' (mem_cons_of_mem _ hd')
  case slots =>
    intro i q hq
    change ah.resppkt i = some q at hq
    rw [hslots, update_apply] at hq
    split_ifs at hq with hi
    · cases hq
      rw [hi]
      exact hpart.data
    · exact h.slots i q hq
  case low =>
    intro i hi
    change ah.rbitmap.getLsbD i = true ↔ ah.resppkt i = none
    rw [hbits, hslots, update_apply]
    split_ifs with heq
    · simp [heq]
    · -- the end of message leaves the bits up to the last part
      have heom : (!p.has atpEom || decide (i ≤ ⟨p.bitmap.toNat, hlt⟩)) = true := by
        cases hcase : p.has atpEom with
        | false => rfl
        | true =>
          have hlast := hpart.eom hcase
          exact decide_eq_true (Fin.le_def.mpr (by dsimp only; omega))
      rw [heom, Bool.and_true, decide_eq_true heq, Bool.and_true]
      exact h.low i hi
  case high =>
    intro i j hi hj hbit
    change ah.rbitmap.getLsbD i = true at hbit
    change ah.rbitmap.getLsbD j = true ∧ _
    rw [hbits, Bool.and_eq_true, Bool.and_eq_true] at hbit
    obtain ⟨⟨hbit, -⟩, heom⟩ := hbit
    obtain ⟨hlast, hfewer⟩ := h.high i j hi hj hbit
    refine ⟨?_, hfewer⟩
    have hno : p.has atpEom = false := by
      cases hcase : p.has atpEom with
      | false => rfl
      | true =>
        rw [hcase, Bool.not_true, Bool.false_or, decide_eq_true_eq, Fin.le_def] at heom
        dsimp only at heom
        omega
    have hne : j ≠ ⟨p.bitmap.toNat, hlt⟩ := by
      rintro rfl
      rw [hpart.last hj hfewer] at hno
      cases hno
    rw [hbits, hlast, hno, decide_eq_true hne]
    rfl
  case missing =>
    intro i hi hnone
    change ah.resppkt i = none at hnone
    rw [hslots, update_apply] at hnone
    split_ifs at hnone with heq
    obtain ⟨d', hd', p', hp', hmine', hseq'⟩ := h.missing i hi hnone
    rcases mem_cons.mp hd' with rfl | hd'
    · obtain rfl := some.inj (hp.symm.trans hp')
      exact absurd (Fin.ext hseq'.symm) heq
    · exact ⟨d', hd', p', hp', hmine', hseq'⟩
  case clock =>
    intro k hk hk'
    have hreads : s.read.net.reads = s.net.reads + 1 := rfl
    change s.read.net.reads ≤ k at hk
    change k < s.read.net.reads + (s.ah.queue.countP _ + arr.length) at hk'
    refine h.clock k (by omega) ?_
    rw [length_cons]
    omega

/-- The packets still to be taken from the queue and to arrive. -/
def left (saddr : SockaddrAt) (arr : List Arrival) (s : State) : ℕ :=
  s.ah.queue.countP (accepts saddr atpTresp atpTidany) + arr.length

/-- The call goes on waiting, with less to come, or the response is complete. -/
def Advances (saddr : SockaddrAt) (tid : BitVec 16) (resp : List (List UInt8)) (respcount : ℤ)
    (n : ℕ) : Rc × SockaddrAt × State → Prop
  | (.zero, _, s) => s.ah.rbitmap ≠ 0 ∧
      ∃ arr, Waiting saddr tid resp respcount arr s ∧ left saddr arr s < n
  | (.tresp, _, s) => Complete resp s.ah
  | _ => False

theorem Waiting.step_queue (h : Waiting saddr tid resp respcount arr s) (hb : s.ah.rbitmap ≠ 0)
    (hfind : s.ah.queue.find? (accepts saddr atpTresp atpTidany) = some (sender, p)) :
    Advances saddr tid resp respcount (left saddr arr s) (rselTake true saddr (.got sender p,
      ⟨{ s.ah with queue := s.ah.queue.eraseP (accepts saddr atpTresp atpTidany) }, s.read.net,
        s.script⟩)) := by
  obtain ⟨addr, req, hreq, htid⟩ := h.reqpkt
  have hmem := mem_of_find?_eq_some hfind
  have hacc := find?_some hfind
  obtain ⟨hfunc, haddr⟩ : p.func = atpTresp ∧ atAddrEq saddr sender = true :=
    func_of_accepts hacc
  have hother : ¬req.tid = p.tid := fun heq =>
    h.queue _ hmem ⟨hfunc, haddr, heq.symm.trans htid⟩
  rw [@rselTake_toss ⟨{ s.ah with queue := s.ah.queue.eraseP (accepts saddr atpTresp atpTidany) },
    s.read.net, s.script⟩ _ _ _ _ _ hreq hb h.tries hfunc fun hyes => hother hyes.2]
  obtain ⟨b, l₁, l₂, -, hb', hsplit, herase⟩ := exists_of_eraseP hmem hacc
  have hless : (s.ah.queue.eraseP (accepts saddr atpTresp atpTidany)).countP
        (accepts saddr atpTresp atpTidany) <
      s.ah.queue.countP (accepts saddr atpTresp atpTidany) := by
    rw [herase, hsplit, countP_append, countP_append, countP_cons_of_pos hb']
    omega
  refine ⟨hb, arr, h.pass (fun b hb => h.queue b (mem_of_mem_eraseP hb)) h.script
    (fun _ hd => hd) (fun _ hd _ _ _ => .inl hd) (by omega), ?_⟩
  exact Nat.add_lt_add_right hless _

/-- A packet from the socket is accepted, or it goes away or into the queue and is no part. -/
theorem recvDatagram_inv (bytes : List UInt8) (ah : Handle) :
    (∃ p, atpPacket bytes = some p ∧ accepts saddr atpTresp atpTidany (sender, p) = true ∧
        recvDatagram saddr atpTresp atpTidany ah sender bytes = (some p, ah)) ∨
      ∃ queue sent, recvDatagram saddr atpTresp atpTidany ah sender bytes =
          (none, { ah with queue := queue, sent := sent }) ∧
        (∀ p tid, atpPacket bytes = some p → ¬Mine saddr tid sender p) ∧
        ∀ b ∈ queue, b ∈ ah.queue ∨ accepts saddr atpTresp atpTidany b = false := by
  unfold recvDatagram
  cases hp : atpPacket bytes with
  | none => exact .inr ⟨ah.queue, ah.sent, rfl, by simp, fun b hb => .inl hb⟩
  | some p =>
    dsimp only
    split_ifs with hzero htrel hacc
    · refine .inr ⟨ah.queue, ah.sent, rfl, ?_, fun b hb => .inl hb⟩
      rintro _ tid ⟨⟩ hmine
      rw [hmine.func] at hzero
      exact absurd hzero (by decide)
    · refine .inr ⟨ah.queue, _, rfl, ?_, fun b hb => .inl hb⟩
      rintro _ tid ⟨⟩ hmine
      rw [hmine.func] at htrel
      exact absurd htrel (by decide)
    · exact .inl ⟨p, rfl, hacc, rfl⟩
    · refine .inr ⟨_, ah.sent, rfl, ?_, ?_⟩
      · rintro _ tid ⟨⟩ hmine
        exact hacc (accepts_of_mine hmine)
      · intro b hb
        have hb : b = (sender, p) ∨ b ∈ ah.queue := by
          unfold atpQueuePush at hb
          split_ifs at hb
          · exact (mem_cons.mp hb).imp_right mem_of_mem_dropLast
          · exact mem_cons.mp hb
        rcases hb with rfl | hb
        · exact .inr (Bool.not_eq_true _ ▸ hacc)
        · exact .inl hb

theorem Waiting.step_arrival (h : Waiting saddr tid resp respcount (d :: arr) s)
    (hlen : resp.length ≤ 8) (hb : s.ah.rbitmap ≠ 0)
    (hfind : s.ah.queue.find? (accepts saddr atpTresp atpTidany) = none) :
    ∃ r, recvSocket saddr atpTresp atpTidany false s.script s.read = some r ∧
      Advances saddr tid resp respcount (left saddr (d :: arr) s) (rselTake true saddr r) := by
  obtain ⟨addr, req, hreq, htid⟩ := h.reqpkt
  obtain ⟨rest, hscript⟩ := h.script
  rw [map_cons, cons_append] at hscript
  have hrest : ∃ rest', arr.map (fun d => Event.datagram d.1 d.2) ++ rest =
      arr.map (fun d => .datagram d.1 d.2) ++ rest' := ⟨rest, rfl⟩
  rw [hscript, recvSocket]
  rcases recvDatagram_inv d.2 s.read.ah with
    ⟨p, hp, hacc, heq⟩ | ⟨queue, sent, heq, hno, hqueue⟩
  · rw [heq]
    refine ⟨_, rfl, ?_⟩
    obtain ⟨hfunc, haddr⟩ : p.func = atpTresp ∧ atAddrEq saddr d.1 = true := func_of_accepts hacc
    let s₁ : State := ⟨s.ah, s.read.net, arr.map (fun d => .datagram d.1 d.2) ++ rest⟩
    change Advances _ _ _ _ _ (rselTake true saddr (.got d.1 p, s₁))
    -- the response is tossed if it is of another transaction, or the part is there already
    have htossed (hno : ¬(s.ah.rbitmap.getLsbD p.bitmap.toNat = true ∧ req.tid = p.tid))
        (hseen : Mine saddr tid d.1 p →
          ∀ i : Fin 8, p.bitmap.toNat = i.val → s.ah.resppkt i ≠ none) :
        Advances saddr tid resp respcount (left saddr (d :: arr) s)
          (rselTake true saddr (.got d.1 p, s₁)) := by
      rw [@rselTake_toss s₁ _ _ _ _ _ hreq hb h.tries hfunc hno]
      refine ⟨hb, arr, h.pass h.queue hrest (fun _ hd => mem_cons_of_mem _ hd) ?_ ?_, ?_⟩
      · intro d' hd' p' hp' hmine
        rcases mem_cons.mp hd' with rfl | hd'
        · obtain rfl := some.inj (hp.symm.trans hp')
          exact .inr (hseen hmine)
        · exact .inl hd'
      · exact Nat.add_lt_add_left (Nat.lt_succ_self _) _
      · exact Nat.add_lt_add_left (Nat.lt_succ_self _) _
    by_cases hmine : p.tid = tid
    · have hmine : Mine saddr tid d.1 p := ⟨hfunc, haddr, hmine⟩
      have hpart := h.parts d mem_cons_self p hp hmine
      have hseq : p.bitmap.toNat < resp.length := (List.getElem?_eq_some_iff.mp hpart.data).1
      by_cases hbit : s.ah.rbitmap.getLsbD p.bitmap.toNat = true
      · -- the part fills its slot
        obtain ⟨a, req', out, htake, hreq'⟩ := @rselTake_accept addr s₁ req p saddr d.1 hreq h.sends
          h.tries hfunc (hseq.trans_le hlen) hbit (htid.trans hmine.tid.symm)
        have hwait := h.accept hp hmine (hseq.trans_le hlen) addr (hreq'.trans hmine.tid) out hrest
        rw [htake]
        split_ifs with hzero
        · exact hwait.complete hzero
        · exact ⟨hzero, arr, hwait, Nat.add_lt_add_left (Nat.lt_succ_self _) _⟩
      · refine htossed (fun hyes => hbit hyes.1) fun _ i hi hslot => hbit ?_
        rw [hi]
        exact (h.low i (hi ▸ hseq)).mpr hslot
    · exact htossed (fun hyes => hmine (hyes.2.symm.trans htid)) fun hm => absurd hm.tid hmine
  · rw [heq]
    have hqueue' : ∀ b ∈ queue, ¬accepts saddr atpTresp atpTidany b = true := by
      intro b hb
      rcases hqueue b hb with hold | hnew
      · exact find?_eq_none.mp hfind b hold
      · exact Bool.not_eq_true _ ▸ hnew
    have hzero : queue.countP (accepts saddr atpTresp atpTidany) = 0 :=
      countP_eq_zero.mpr hqueue'
    refine ⟨_, rfl, hb, arr, ?_, ?_⟩
    · refine h.pass (fun b hb hmine => hqueue' b hb (accepts_of_mine hmine)) hrest
        (fun _ hd => mem_cons_of_mem _ hd) ?_ ?_
      · intro d' hd' p hp hmine
        rcases mem_cons.mp hd' with rfl | hd'
        · exact absurd hmine (hno p tid hp)
        · exact .inl hd'
      · rw [length_cons]
        omega
    · change queue.countP _ + arr.length < s.ah.queue.countP _ + (d :: arr).length
      rw [length_cons]
      omega

section
variable (h : Waiting saddr tid resp respcount arr s) (hresp : resp ≠ []) (hlen : resp.length ≤ 8)
  (hb : s.ah.rbitmap ≠ 0)
include h hresp hlen hb

theorem Waiting.step : ∃ r, atpRsel saddr atpTresp s = some r ∧
      Advances saddr tid resp respcount (left saddr arr s) r := by
  obtain ⟨i, hi, hnone⟩ := h.exists_missing hresp hlen hb
  obtain ⟨d, hd, -⟩ := h.missing i hi hnone
  obtain ⟨d, arr, rfl⟩ := exists_cons_of_ne_nil (ne_nil_of_mem hd)
  have hfunc : ¬atpTresp = 0 := by decide
  have hwaits : ¬(Atp.requesting atpTresp s.ah && decide (s.ah.rbitmap = 0)) = true := by
    rw [decide_eq_false hb, Bool.and_false]
    exact Bool.false_ne_true
  rw [atpRsel, if_neg hfunc, rselFunc, if_neg hwaits, h.isRequesting, h.rselRecv_eq, atpRecvAtp]
  split
  · rename_i sender p hfind
    exact ⟨_, rfl, h.step_queue hb hfind⟩
  · rename_i hfind
    obtain ⟨r, hrecv, hadv⟩ := h.step_arrival hlen hb hfind
    exact ⟨_, congrArg (Option.map _) hrecv, hadv⟩

theorem Waiting.loop (hfuel : left saddr arr s < fuel) :
    ∃ a s', rrespLoop saddr fuel s = some (.tresp, a, s') ∧ Complete resp s'.ah := by
  induction fuel generalizing arr s with
  | zero => omega
  | succ fuel ih =>
    obtain ⟨⟨rc, a, s'⟩, hrsel, hadv⟩ := h.step hresp hlen hb
    rw [rrespLoop, hrsel]
    cases rc with
    | zero =>
      obtain ⟨hb', arr', h', hless⟩ := hadv
      exact ih h' hb' (by omega)
    | tresp => exact ⟨a, s', rfl, hadv⟩
    | treq | error => cases hadv

end

end

/-! ### Handing out -/

/-- The vector has room for every part. -/
def Room (resp : List (List UInt8)) (iov : List ℕ) : Prop :=
  ∀ (i : ℕ) (d : List UInt8), resp[i]? = some d → ∃ room, iov[i]? = some room ∧ d.length ≤ room

/-- The slots up to the first empty one are handed out. -/
theorem handOut_ok {resp : List (List UInt8)} {slots : List (Option Packet)} {iov : List ℕ}
    (hslots : ∀ i : ℕ, (slots[i]?.join).map Packet.data = resp[i]?) (hroom : Room resp iov) :
    (handOut slots iov).1 = .ok resp := by
  induction resp generalizing slots iov with
  | nil =>
    have hfirst := hslots 0
    cases slots with
    | nil => rfl
    | cons slot =>
      cases slot with
      | none => rfl
      | some => cases hfirst
  | cons d resp ih =>
    have hfirst := hslots 0
    obtain ⟨room, hiov, hle⟩ := hroom 0 d rfl
    cases slots with
    | nil => cases hfirst
    | cons slot slots =>
      cases slot with
      | none => cases hfirst
      | some p =>
        cases hfirst
        cases iov with
        | nil => cases hiov
        | cons room' iov =>
          cases hiov
          have hrest := @ih slots iov (fun i => hslots (i + 1))
            (fun i d hd => hroom (i + 1) d hd)
          rw [handOut, if_neg hle.not_gt]
          change Except.map _ (handOut slots iov).1 = _
          rw [hrest]
          rfl

/-! ### The request -/

/-- What `atp_sreq` with a timeout does when it succeeds. -/
theorem atpSreq_ok {atpb : Sreq} {respcount : ℤ} {flags : BitVec 8} {s s₁ : State}
    (h : atpSreq atpb respcount flags s = (.ok (), s₁)) (hto : atpb.sreqto ≠ 0) :
    (0 ≤ respcount ∧ respcount ≤ 8 ∧ (1 ≤ atpb.sreqtries ∨ atpb.sreqtries = atpTriesInfinite)) ∧
      ∃ req out, req.tid = s.ah.tid ∧ s₁ = ⟨{ s.ah with
        resppkt := fun _ => none
        tid := s.ah.tid + 1
        reqtv := s.now
        reqto := atpb.sreqto
        reqtries := if atpb.sreqtries = atpTriesInfinite then atpTriesInfinite
          else atpb.sreqtries - 1
        reqpkt := some (atpb.saddr, req)
        rbitmap := BitVec.ofNat 8 (2 ^ respcount.toNat - 1)
        rrespcount := respcount }, { s.read.net with out := out }, s.script⟩ := by
  unfold atpSreq at h
  split at h
  · cases h
  · rename_i hbad
    push Not at hbad
    refine ⟨by omega, ?_⟩
    dsimp only [State.sendto] at h
    split at h <;> rename_i heq <;> obtain ⟨-, rfl⟩ := Prod.mk.inj heq
    · cases h
    · cases h
      exact ⟨_, _, rfl, rfl⟩

/-- The arrivals bring the parts of the response, each at least once, in any order, and besides them
only packets of other transactions. -/
structure Brings (saddr : SockaddrAt) (tid : BitVec 16) (resp : List (List UInt8)) (respcount : ℤ)
    (arr : List Arrival) : Prop where
  parts : ∀ d ∈ arr, ∀ p, atpPacket d.2 = some p → Mine saddr tid d.1 p → IsPart resp respcount p
  all : ∀ i < resp.length, ∃ d ∈ arr, ∃ p, atpPacket d.2 = some p ∧ Mine saddr tid d.1 p ∧
    p.bitmap.toNat = i

theorem rbitmap_ne_zero {respcount : ℤ} (hpos : 0 < respcount) (hmax : respcount ≤ 8) :
    BitVec.ofNat 8 (2 ^ respcount.toNat - 1) ≠ 0 := by
  have hbits : ∀ n : Fin 9, 0 < n.val → BitVec.ofNat 8 (2 ^ n.val - 1) ≠ 0 := by
    decide
  exact hbits ⟨respcount.toNat, by omega⟩ (by change 0 < respcount.toNat; omega)

/-! ### Without tries -/

/-- No try is left and the response is not complete. -/
def Stuck (ah : Handle) : Prop := ah.triesLeft = false ∧ ah.rbitmap ≠ 0

section
variable {s : State} (hstuck : Stuck s.ah)
include hstuck

theorem recvSocket_stuck {func : BitVec 8} {wait : Bool} {r : Recv}
    (h : recvSocket saddr func tid wait script s = some (r, s')) : Stuck s'.ah := by
  induction script generalizing s with
  | nil => cases h
  | cons e script ih =>
    cases e with
    | timeout => exact ih hstuck h
    | interrupted | failed =>
      cases h
      exact hstuck
    | datagram sender bytes =>
      have hah : Stuck (recvDatagram saddr func tid s.ah sender bytes).2 := by
        unfold recvDatagram
        split
        · exact hstuck
        · split_ifs <;> exact hstuck
      rw [recvSocket] at h
      split at h <;> rename_i heq <;> rw [heq] at hah
      · cases h
        exact hah
      · split_ifs at h
        · exact ih hah h
        · cases h
          exact hah

theorem rselTake_stuck (faddr : SockaddrAt) (r : Recv) :
    (rselTake false faddr (r, s)).1 ≠ .tresp ∧ Stuck (rselTake false faddr (r, s)).2.2.ah := by
  have hincomplete : atpRespIncomplete s.ah ≠ .tresp := by
    simp [atpRespIncomplete, hstuck.1]
  cases r with
  | error | nothing => exact ⟨by simp [rselTake], hstuck⟩
  | got =>
    simp only [rselTake]
    split
    · unfold rselRequest
      split <;> exact ⟨by simp, hstuck⟩
    · unfold rselResponse
      split
      · exact ⟨hincomplete, hstuck⟩
      · simp only [Bool.false_and, Bool.false_eq_true, if_false, rselComplete, if_neg hstuck.2,
          dite_eq_ite, ite_self]
        exact ⟨hincomplete, hstuck⟩

theorem atpRsel_stuck (h : atpRsel saddr atpTresp s = some (rc, a, s')) :
    rc ≠ .tresp ∧ Stuck s'.ah := by
  have hfunc : ¬atpTresp = 0 := by decide
  have hno : requesting atpTresp s.ah = false := by
    rw [requesting, hstuck.1, Bool.and_false]
  rw [atpRsel, if_neg hfunc, rselFunc, hno, Bool.false_and, if_neg Bool.false_ne_true, rselRecv,
    hno, if_neg Bool.false_ne_true, atpRecvAtp] at h
  obtain ⟨⟨r, s₁⟩, hrecv, h⟩ := map_eq_some_iff.mp h
  have hstuck₁ : Stuck s₁.ah := by
    split at hrecv
    · cases hrecv
      exact hstuck
    · exact recvSocket_stuck hstuck hrecv
  have htake := rselTake_stuck hstuck₁ saddr r
  rw [h] at htake
  exact htake

theorem rrespLoop_stuck (h : rrespLoop saddr fuel s = some (rc, a, s')) : rc ≠ .tresp := by
  induction fuel generalizing s with
  | zero => cases h
  | succ fuel ih =>
    obtain ⟨⟨rc₁, a₁, s₁⟩, hrsel, h⟩ := bind_eq_some_iff.mp h
    obtain ⟨hrc, hstuck₁⟩ := atpRsel_stuck hstuck hrsel
    cases rc₁ with
    | zero => exact ih hstuck₁ h
    | tresp => exact absurd rfl hrc
    | treq | error =>
      cases h
      exact hrc

end

/-! ### The whole transaction -/

section
variable {atpb : Sreq} {respcount : ℤ} {flags : BitVec 8} {s s₁ : State} {saddr : SockaddrAt}
  {resp : List (List UInt8)} {arr : List Arrival} {iov : List ℕ}
  (hsreq : atpSreq atpb respcount flags s = (.ok (), s₁)) (hto : atpb.sreqto ≠ 0)
include hsreq hto

theorem stuck_of_atpSreq (hone : atpb.sreqtries = 1) (hpos : 0 < respcount) : Stuck s₁.ah := by
  obtain ⟨⟨hnonneg, hmax, -⟩, req, out, htid, rfl⟩ := atpSreq_ok hsreq hto
  refine ⟨?_, rbitmap_ne_zero hpos hmax⟩
  rw [hone]
  rfl

variable (hresp : resp ≠ []) (hle : (resp.length : ℤ) ≤ respcount)
  (hsends : ∀ k, s.net.sends k = true) (hqueue : ∀ b ∈ s.ah.queue, ¬Mine saddr s.ah.tid b.1 b.2)
  (hscript : ∃ rest, s.script = arr.map (fun d => .datagram d.1 d.2) ++ rest)
  (hbrings : Brings saddr s.ah.tid resp respcount arr)
  (hclock : ∀ k, s.net.reads < k → k ≤ s.net.reads + s.ah.queue.length + arr.length →
    s.net.clock k - s.now ≤ atpb.sreqto)
include hresp hle hsends hqueue hscript hbrings hclock

theorem waiting_of_atpSreq (htries : atpb.sreqtries ≠ 1) :
    Waiting saddr s.ah.tid resp respcount arr s₁ ∧ s₁.ah.rbitmap ≠ 0 ∧ s₁.ah.queue = s.ah.queue ∧
      s₁.script = s.script := by
  obtain ⟨⟨hnonneg, hmax, hvalid⟩, req, out, htid, rfl⟩ := atpSreq_ok hsreq hto
  have hpos := length_pos_iff.mpr hresp
  have hbit : ∀ i : Fin 8, (BitVec.ofNat 8 (2 ^ respcount.toNat - 1)).getLsbD i =
      decide (i.val < respcount.toNat) := getLsbD_below ⟨respcount.toNat, by omega⟩
  refine ⟨?_, ?_, rfl, rfl⟩
  · constructor
    case reqpkt => exact ⟨_, req, rfl, htid⟩
    case count => exact (Int.natCast_pos.mpr hpos).trans_le hle
    case tries =>
      simp only [Handle.triesLeft, Bool.or_eq_true, decide_eq_true_eq]
      split_ifs with hinf
      · exact .inr rfl
      · exact .inl (by omega)
    case sends => exact hsends
    case slots =>
      rintro i p ⟨⟩
    case low =>
      intro i hi
      rw [hbit, decide_eq_true_eq]
      exact iff_of_true (by omega) rfl
    case high =>
      intro i j hi hj hset
      rw [hbit, decide_eq_true_eq] at hset ⊢
      omega
    case queue => exact hqueue
    case script => exact hscript
    case parts => exact hbrings.parts
    case missing => exact fun i hi _ => hbrings.all i hi
    case clock =>
      intro k hk hk'
      have hreads : s.read.net.reads = s.net.reads + 1 := rfl
      have hqueued :=
        countP_le_length (p := accepts saddr atpTresp atpTidany) (l := s.ah.queue)
      dsimp only at hk hk'
      exact hclock k (by omega) (by omega)
  · exact rbitmap_ne_zero (by omega) hmax

/-- When all parts of a response arrive before the first timeout, in any order, repeated, and among
packets of other transactions, `atp_rresp` hands out exactly their data exactly if the request has
more than one try. -/
theorem atpRresp_iff (hroom : Room resp iov) (hiov : iov.length ≤ 8) :
    (∃ s₂, atpRresp saddr iov s₁ = some (.ok resp, s₂)) ↔ atpb.sreqtries ≠ 1 := by
  have hpos : 0 < (resp.length : ℤ) := Int.natCast_pos.mpr (length_pos_iff.mpr hresp)
  have hvector : ¬(iov.length = 0 ∨ 8 < iov.length) := by
    obtain ⟨d, resp, rfl⟩ := exists_cons_of_ne_nil hresp
    obtain ⟨room, hfirst, -⟩ := hroom 0 d rfl
    have hlt := (List.getElem?_eq_some_iff.mp hfirst).1
    omega
  rw [atpRresp, if_neg hvector]
  constructor
  · rintro ⟨s₂, h⟩ hone
    obtain ⟨⟨rc, a, s'⟩, hloop, h⟩ := bind_eq_some_iff.mp h
    have hrc := rrespLoop_stuck (stuck_of_atpSreq hsreq hto hone (hpos.trans_le hle)) hloop
    cases rc with
    | tresp => exact hrc rfl
    | zero | treq | error => cases h
  · intro htries
    obtain ⟨hwait, hb, hq, hs⟩ :=
      waiting_of_atpSreq hsreq hto hresp hle hsends hqueue hscript hbrings hclock htries
    obtain ⟨rest, hrest⟩ := hscript
    have hmax := (atpSreq_ok hsreq hto).1.2.1
    have hqueued := countP_le_length (p := accepts saddr atpTresp atpTidany) (l := s₁.ah.queue)
    have hfuel : left saddr arr s₁ < 2 * s₁.script.length + s₁.ah.queue.length + 1 := by
      rw [left, hs, hrest, length_append, length_map]
      omega
    obtain ⟨a, s', hloop, hcomplete⟩ := hwait.loop hresp (by omega) hb hfuel
    have hout : (handOut (ofFn s'.ah.resppkt) iov).1 = .ok resp := by
      refine handOut_ok (fun i => ?_) hroom
      by_cases hi : i < 8
      · rw [List.getElem?_ofFn, dif_pos hi]
        exact hcomplete ⟨i, hi⟩
      · rw [List.getElem?_ofFn, dif_neg hi, eq_comm]
        exact getElem?_eq_none (by omega)
    rw [hloop]
    exact ⟨_, by rw [← hout]; rfl⟩

end

def server : SockaddrAt := ⟨4, 1, 20⟩

/-- Part 1, a request of another transaction, part 1 again and part 0. -/
def shuffled : List Arrival :=
  [(server, [3, 0x90, 1, 0, 7, 20]), (server, [3, 0x40, 1, 0, 9]),
    (server, [3, 0x90, 1, 0, 7, 20]), (server, [3, 0x80, 0, 0, 7, 10])]

/-- An endpoint about to send transaction 7, and the arrivals. -/
def beforeRequest : State :=
  ⟨atpOpen 7, ⟨fun _ => 0, 0, fun _ => true, []⟩, shuffled.map fun d => .datagram d.1 d.2⟩

theorem brings_shuffled : Brings server 7 [[10], [20]] 3 shuffled where
  parts := by
    intro d hd p hp hmine
    simp only [shuffled, mem_cons, not_mem_nil, or_false] at hd
    rcases hd with rfl | rfl | rfl | rfl <;> cases hp
    · exact ⟨rfl, fun _ => rfl, fun _ _ => rfl⟩
    · exact absurd hmine.func (by decide)
    · exact ⟨rfl, fun _ => rfl, fun _ _ => rfl⟩
    · exact ⟨rfl, by decide, by decide⟩
  all := by
    intro i hi
    rcases Nat.lt_succ_iff_lt_or_eq.mp hi with hi | rfl
    · obtain rfl := Nat.lt_one_iff.mp hi
      exact ⟨(server, [3, 0x80, 0, 0, 7, 10]), by decide, _, rfl, ⟨rfl, rfl, rfl⟩, rfl⟩
    · exact ⟨(server, [3, 0x90, 1, 0, 7, 20]), by decide, _, rfl, ⟨rfl, rfl, rfl⟩, rfl⟩

/-- With two tries the response is put together. -/
theorem atpRresp_shuffled : ∃ s₂, atpRresp server [578, 578]
      (atpSreq ⟨server, [0, 0, 0, 0], 5, 2⟩ 3 atpXo beforeRequest).2 =
    some (.ok [[10], [20]], s₂) := by
  have hnow : (0 : ℤ) - 0 ≤ 5 := by decide
  refine (@atpRresp_iff ⟨server, [0, 0, 0, 0], 5, 2⟩ 3 atpXo beforeRequest _ server [[10], [20]]
    shuffled _ rfl (by decide) (by decide) (by decide) (fun _ => rfl)
    (fun b hb => absurd hb not_mem_nil) ⟨[], rfl⟩ brings_shuffled (fun _ _ _ => hnow) ?_
    (by decide)).mpr (by decide)
  rintro (_ | _ | i) d hd
  · cases hd
    exact ⟨578, rfl, by decide⟩
  · cases hd
    exact ⟨578, rfl, by decide⟩
  · cases hd

/-- With one try the same arrivals end in a timeout at the first of them. -/
theorem atpRresp_one_try : (atpRresp server [578, 578]
      (atpSreq ⟨server, [0, 0, 0, 0], 5, 1⟩ 3 atpXo beforeRequest).2).map (·.1) =
      some (.error .etimedout) :=
  rfl

end Netatalk.Atp
