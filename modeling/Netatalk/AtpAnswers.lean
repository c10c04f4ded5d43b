import Netatalk.Atp

/-! # Exactly once

An answer to an exactly-once request is saved until a release for it arrives or its release time has
run out, whatever calls the endpoint makes in between (`Keeps`).  A repeated request is looked up by
the walk `findDuplicate`, which also drops the expired answers that it passes.  It stops at an
expired answer that stands first in the list, so the request is answered again exactly if the first
answer has not expired.  The walk takes the zero fields of the sender for any, so it is that answer
only if no other one saved has its transaction ID and an address that agrees. -/

namespace Netatalk.Atp

open List Option

/-! ### What becomes of a saved answer -/

/-- The event is a release for the answer. -/
def Event.releases (a : Saved) : Event → Bool
  | .datagram sender bytes =>
    (atpPacket bytes).any fun p => p.func = atpTrel && a.isFor sender p.tid
  | _ => false

/-- The answer is in the list; its time may have been set anew. -/
def StillSaved (a : Saved) (sent : List Saved) : Prop :=
  ∃ tv, a.tv ≤ tv ∧ { a with tv := tv } ∈ sent

/-- From one state to a later one, every saved answer stays that no release was for and that no
reading of the clock found expired. -/
structure Keeps (s s' : State) : Prop where
  clock : s'.net.clock = s.net.clock
  reads : s.net.reads ≤ s'.net.reads
  script : s'.script <:+ s.script
  saved : ∀ a used, s.script = used ++ s'.script → (∀ e ∈ used, e.releases a = false) →
    (∀ k, s.net.reads ≤ k → k < s'.net.reads →
      a.tv ≤ s.net.clock k ∧ s.net.clock k - a.tv ≤ a.reltime) →
    StillSaved a s.ah.sent → StillSaved a s'.ah.sent

variable {faddr faddr' fromaddr : SockaddrAt} {func : BitVec 8} {r : Recv} {rc : Rc} {s s' : State}
  {script : List Event} {wait : Bool}

/-- The list of saved answers is as it was. -/
theorem Keeps.of_sent (hsent : s'.ah.sent = s.ah.sent) (hclock : s'.net.clock = s.net.clock)
    (hreads : s.net.reads ≤ s'.net.reads) (hscript : s'.script <:+ s.script) : Keeps s s' :=
  ⟨hclock, hreads, hscript, fun _ _ _ _ _ h => hsent ▸ h⟩

theorem Keeps.drop (e : Event) :
    Keeps { s with script := e :: script } { s with script := script } :=
  .of_sent rfl rfl le_rfl (suffix_cons _ _)

theorem Keeps.refl : Keeps s s :=
  .of_sent rfl rfl le_rfl (suffix_refl _)

theorem Keeps.trans {s'' : State} (h : Keeps s s') (h' : Keeps s' s'') : Keeps s s'' where
  clock := h'.clock.trans h.clock
  reads := h.reads.trans h'.reads
  script := h'.script.trans h.script
  saved := by
    intro a used hused hrel htime hsaved
    obtain ⟨used₁, h₁⟩ := h.script
    obtain ⟨used₂, h₂⟩ := h'.script
    obtain rfl : used = used₁ ++ used₂ := by
      rw [← h₁, ← h₂, ← append_assoc] at hused
      exact (append_cancel_right hused).symm
    have hfirst := h.saved a used₁ h₁.symm
      (fun e he => hrel e (mem_append_left _ he))
      (fun k hk hk' => htime k hk (hk'.trans_le h'.reads)) hsaved
    refine h'.saved a used₂ h₂.symm (fun e he => hrel e (mem_append_right _ he)) ?_ hfirst
    intro k hk hk'
    rw [h.clock]
    exact htime k (h.reads.trans hk) hk'

/-! ### Receiving -/

theorem recvDatagram_keeps (fromaddr : SockaddrAt) (func : BitVec 8) (tid : BitVec 16) (s : State)
    (sender : SockaddrAt) (bytes : List UInt8) (script : List Event) :
    Keeps { s with script := .datagram sender bytes :: script }
      { s with
        ah := (recvDatagram fromaddr func tid s.ah sender bytes).2
        script := script } where
  clock := rfl
  reads := le_rfl
  script := suffix_cons _ _
  saved := by
    rintro a used hused hrel - ⟨tv, htv, ha⟩
    obtain rfl : used = [.datagram sender bytes] :=
      (append_cancel_right (hused : [_] ++ script = _)).symm
    have hrel := hrel _ mem_cons_self
    refine ⟨tv, htv, ?_⟩
    unfold recvDatagram
    split
    · exact ha
    · rename_i p hp
      split_ifs with hnone htrel
      · exact ha
      · -- a release for another answer
        simp only [Event.releases, hp, any_some, htrel, decide_true] at hrel
        exact (mem_eraseP_of_neg (by simpa [Saved.isFor] using hrel)).mpr ha
      · exact ha
      · exact ha

theorem recvSocket_keeps {tid : BitVec 16}
    (h : recvSocket fromaddr func tid wait script s = some (r, s')) :
    Keeps { s with script := script } s' := by
  induction script generalizing s with
  | nil => cases h
  | cons e script ih =>
    cases e with
    | timeout => exact (Keeps.drop _).trans (ih h)
    | interrupted | failed =>
      cases h
      exact .drop ..
    | datagram sender bytes =>
      have hkeeps := recvDatagram_keeps fromaddr func tid s sender bytes script
      rw [recvSocket] at h
      split at h
      · rename_i heq
        cases h
        rw [heq] at hkeeps
        exact hkeeps
      · rename_i heq
        rw [heq] at hkeeps
        split_ifs at h
        · exact hkeeps.trans (ih h)
        · cases h
          exact hkeeps

theorem atpRecvAtp_keeps {tid : BitVec 16}
    (h : atpRecvAtp fromaddr func tid wait s = some (r, s')) :
    Keeps s s' := by
  unfold atpRecvAtp at h
  split at h
  · cases h
    exact .of_sent rfl rfl le_rfl (suffix_refl _)
  · exact recvSocket_keeps h

theorem resendRequest_frame :
    (resendRequest s).2.ah.sent = s.ah.sent ∧ (resendRequest s).2.net.clock = s.net.clock ∧
      s.net.reads ≤ (resendRequest s).2.net.reads ∧ (resendRequest s).2.script = s.script := by
  unfold resendRequest
  split
  · exact ⟨rfl, rfl, le_rfl, rfl⟩
  · dsimp only [State.sendto]
    split_ifs <;> exact ⟨rfl, rfl, Nat.le_succ _, rfl⟩

theorem selectLoop_keeps (h : selectLoop faddr func script s = some (r, s')) :
    Keeps { s with script := script } s' := by
  induction script generalizing s with
  | nil => cases h
  | cons e script ih =>
    cases e with
    | interrupted | failed =>
      cases h
      exact .drop ..
    | datagram => exact atpRecvAtp_keeps h
    | timeout =>
      obtain ⟨hsent, hclock, hreads, -⟩ := resendRequest_frame
      have hresend : Keeps { s with script := .timeout :: script }
          { (resendRequest s).2 with script := script } :=
        .of_sent hsent hclock hreads (suffix_cons _ _)
      rw [selectLoop] at h
      split_ifs at h
      · split at h
        · rename_i heq
          rw [heq] at hresend
          exact hresend.trans (ih h)
        · rename_i heq
          cases h
          rw [heq] at hresend
          exact hresend
      · cases h
        exact .drop ..

theorem State.read_keeps : Keeps s s.read :=
  .of_sent rfl rfl (Nat.le_succ _) (suffix_refl _)

theorem rselRecv_keeps (h : rselRecv faddr func s = some (r, s')) : Keeps s s' := by
  unfold rselRecv at h
  split_ifs at h
  · obtain ⟨hsent, hclock, hreads, hscript⟩ := resendRequest_frame
    have hresend : Keeps s.read (resendRequest s.read).2 :=
      .of_sent hsent hclock hreads (hscript ▸ suffix_refl _)
    split at h
    · rename_i heq
      rw [heq] at hresend
      exact (s.read_keeps.trans hresend).trans (selectLoop_keeps h)
    · rename_i heq
      cases h
      rw [heq] at hresend
      exact s.read_keeps.trans hresend
  · exact s.read_keeps.trans (selectLoop_keeps h)
  · exact atpRecvAtp_keeps h

/-! ### The walk -/

section
variable {now : ℤ} {saddr : SockaddrAt} {tid : BitVec 16}

/-- An answer within its release time stays. -/
theorem findDuplicate_stillSaved {a : Saved} (htv : a.tv ≤ now) (htime : now - a.tv ≤ a.reltime)
    (pb : Bool) {sent : List Saved} (h : StillSaved a sent) :
    StillSaved a (findDuplicate now saddr tid pb sent).2 := by
  obtain ⟨tv, hle, ha⟩ := h
  have hlive : ∀ cb : Saved, cb.expired now = true → { a with tv := tv } ≠ cb := by
    rintro _ hexp rfl
    simp only [Saved.expired, decide_eq_true_eq] at hexp
    omega
  induction sent generalizing pb with
  | nil => cases ha
  | cons cb next ih =>
    rw [findDuplicate]
    split_ifs with hexp hpb hfor
    · -- the answer is behind the expired one
      exact ih _ ((mem_cons.mp ha).resolve_left (hlive cb hexp))
    · exact ⟨tv, hle, (mem_cons.mp ha).resolve_left (hlive cb hexp)⟩
    · rcases mem_cons.mp ha with rfl | ha
      · exact ⟨now, htv, mem_cons_self⟩
      · exact ⟨tv, hle, mem_cons_of_mem _ ha⟩
    · rcases mem_cons.mp ha with rfl | ha
      · exact ⟨tv, hle, mem_cons_self⟩
      · obtain ⟨tv', hle', ha'⟩ := ih true ha
        exact ⟨tv', hle', mem_cons_of_mem _ ha'⟩

/-- The walk finds the first answer for the request that has not expired, unless the entry it
starts with, with none passed before, has expired. -/
theorem findDuplicate_eq (passed : Bool) (sent : List Saved) :
    (findDuplicate now saddr tid passed sent).1 =
      if !passed && sent.head?.any (Saved.expired now) then none
      else sent.find? fun e => !e.expired now && e.isFor saddr tid := by
  induction sent generalizing passed with
  | nil => cases passed <;> rfl
  | cons cb next ih =>
    rw [findDuplicate, head?_cons, any_some]
    by_cases hexp : cb.expired now = true
    · rw [if_pos hexp, hexp]
      cases passed with
      | false => rfl
      | true => rw [if_pos rfl, ih, find?_cons_of_neg (by simp [hexp])]; rfl
    · rw [if_neg hexp, if_neg (show ¬(!passed && cb.expired now) = true by simp [hexp])]
      split_ifs with hfor
      · rw [find?_cons_of_pos (by simp [hexp, hfor])]
      · rw [find?_cons_of_neg (by simp [hfor])]
        exact ih true

end

/-! ### The calls -/

theorem rselRequest_keeps (saddr : SockaddrAt) (p : Packet) :
    Keeps s (rselRequest faddr saddr p s).2.2 := by
  have hwalk {a : Saved} (htv : a.tv ≤ s.now) (hrel : s.now - a.tv ≤ a.reltime)
      (h : StillSaved a s.ah.sent) :
      StillSaved a (findDuplicate s.now saddr p.tid false s.ah.sent).2 :=
    findDuplicate_stillSaved htv hrel false h
  unfold rselRequest
  split <;> rename_i heq
  all_goals
    rw [heq] at hwalk
    refine ⟨rfl, Nat.le_succ _, suffix_refl _, fun a used _ _ htime h => ?_⟩
    obtain ⟨htv, hrel⟩ := htime _ le_rfl (Nat.lt_succ_self _)
    exact hwalk htv hrel h

theorem rselComplete_keeps (saddr addr : SockaddrAt) (req : Packet) :
    Keeps s (rselComplete faddr saddr addr req s).2.2 := by
  unfold rselComplete
  split_ifs <;> exact .of_sent rfl rfl le_rfl (suffix_refl _)

theorem rselResponse_keeps (pending : Bool) (saddr : SockaddrAt) (p : Packet) :
    Keeps s (rselResponse pending faddr saddr p s).2.2 := by
  unfold rselResponse
  split
  · exact .refl
  · split_ifs
    · dsimp only [State.sendto]
      split
      · rename_i heq
        obtain ⟨-, rfl⟩ := Prod.mk.inj heq
        refine Keeps.trans ?_ (rselComplete_keeps ..)
        exact .of_sent rfl rfl le_rfl (suffix_refl _)
      · rename_i heq
        obtain ⟨-, rfl⟩ := Prod.mk.inj heq
        exact .of_sent rfl rfl le_rfl (suffix_refl _)
    · refine Keeps.trans ?_ (rselComplete_keeps ..)
      exact .of_sent rfl rfl le_rfl (suffix_refl _)
    · exact rselComplete_keeps ..
    · exact .refl

theorem rselTake_keeps (pending : Bool) (faddr : SockaddrAt) (r : Recv) (s : State) :
    Keeps s (rselTake pending faddr (r, s)).2.2 := by
  cases r with
  | error | nothing => exact .refl
  | got =>
    simp only [rselTake]
    split_ifs
    · exact rselRequest_keeps ..
    · exact rselResponse_keeps ..

theorem rselFunc_keeps (h : rselFunc faddr func s = some (rc, faddr', s')) : Keeps s s' := by
  unfold rselFunc at h
  split at h
  · cases h
    exact .refl
  · obtain ⟨⟨r, s₁⟩, hrecv, h⟩ := map_eq_some_iff.mp h
    have htake := rselTake_keeps (requesting func s.ah) faddr r s₁
    rw [h] at htake
    exact (rselRecv_keeps hrecv).trans htake

theorem atpRsel_keeps (h : atpRsel faddr func s = some (rc, faddr', s')) : Keeps s s' :=
  rselFunc_keeps h

theorem rrespLoop_keeps {saddr saddr' : SockaddrAt} {fuel : ℕ}
    (h : rrespLoop saddr fuel s = some (rc, saddr', s')) : Keeps s s' := by
  induction fuel generalizing s with
  | zero => cases h
  | succ fuel ih =>
    obtain ⟨⟨rc₁, saddr₁, s₁⟩, hrsel, h⟩ := bind_eq_some_iff.mp h
    have hkeeps := atpRsel_keeps hrsel
    cases rc₁ with
    | zero => exact hkeeps.trans (ih h)
    | treq | tresp | error =>
      cases h
      exact hkeeps

variable {saddr : SockaddrAt}

theorem atpRresp_keeps {iov : List ℕ} {r : Except Errno (List (List UInt8))}
    (h : atpRresp saddr iov s = some (r, s')) : Keeps s s' := by
  unfold atpRresp at h
  split_ifs at h
  · cases h
    exact .refl
  · obtain ⟨⟨rc, saddr', s₁⟩, hloop, h⟩ := bind_eq_some_iff.mp h
    refine (rrespLoop_keeps hloop).trans ?_
    cases rc with
    | tresp =>
      cases h
      exact .of_sent rfl rfl le_rfl (suffix_refl _)
    | zero | treq | error =>
      cases h
      exact .refl

theorem atpRreqTry_keeps {dlen : ℕ} {r : Rreq} (h : atpRreqTry saddr dlen s = some (r, s')) :
    Keeps s s' := by
  obtain ⟨⟨rc, faddr, s₁⟩, hrsel, h⟩ := bind_eq_some_iff.mp h
  refine (atpRsel_keeps hrsel).trans ?_
  cases rc with
  | zero | tresp | error =>
    cases h
    exact .refl
  | treq =>
    obtain ⟨⟨r₁, s₂⟩, hrecv, h⟩ := bind_eq_some_iff.mp h
    refine (atpRecvAtp_keeps hrecv).trans ?_
    cases r₁ with
    | nothing | error =>
      cases h
      exact .refl
    | got =>
      have h := some.inj h
      split_ifs at h <;>
      · cases h
        exact .of_sent rfl rfl le_rfl (suffix_refl _)

theorem atpSreq_keeps (atpb : Sreq) (respcount : ℤ) (flags : BitVec 8) :
    Keeps s (atpSreq atpb respcount flags s).2 := by
  unfold atpSreq
  split
  · exact .refl
  · dsimp only [State.sendto]
    split <;> rename_i heq <;> obtain ⟨-, rfl⟩ := Prod.mk.inj heq
    · exact .of_sent rfl rfl (Nat.le_succ _) (suffix_refl _)
    · split <;> exact .of_sent rfl rfl (Nat.le_succ _) (suffix_refl _)

theorem sendAll_frame (addr : SockaddrAt) (packets : List Packet) (s : State) :
    (sendAll addr packets s).2.ah = s.ah ∧ (sendAll addr packets s).2.script = s.script ∧
      (sendAll addr packets s).2.net.clock = s.net.clock ∧
      (sendAll addr packets s).2.net.reads = s.net.reads := by
  induction packets generalizing s with
  | nil => exact ⟨rfl, rfl, rfl, rfl⟩
  | cons p packets ih =>
    unfold sendAll
    split <;> rename_i heq <;> obtain ⟨-, rfl⟩ := Prod.mk.inj heq
    · exact ih _
    · exact ⟨rfl, rfl, rfl, rfl⟩

/-- The answer that `atp_sresp` saves. -/
def answer (saddr : SockaddrAt) (iov : List (List UInt8)) (s : State) : Saved :=
  ⟨saddr, s.ah.rtid, s.now, s.ah.rreltime, respPackets s.ah.rtid iov⟩

/-- What `atp_sresp` does when it succeeds. -/
theorem atpSresp_ok {iov : List (List UInt8)} (h : atpSresp saddr iov s = (.ok (), s'))
    (hxo : s.ah.rxo = true) :
    s'.ah.sent = answer saddr iov s :: s.ah.sent ∧ s'.script = s.script ∧
      s'.net.clock = s.net.clock ∧ s'.net.reads = s.net.reads + 1 := by
  obtain ⟨hah, hscript, hclock, hreads⟩ := sendAll_frame saddr (respPackets s.ah.rtid iov) s
  unfold atpSresp at h
  split at h
  · cases h
  · dsimp only at h
    split at h <;> rename_i heq
    · cases h
    · rw [heq] at hah hscript hclock hreads
      rw [hah, if_pos hxo] at h
      cases h
      refine ⟨?_, hscript, hclock, congrArg (· + 1) hreads⟩
      rw [answer, State.now, State.now, hclock, hreads]

theorem atpSresp_keeps (iov : List (List UInt8)) : Keeps s (atpSresp saddr iov s).2 := by
  obtain ⟨hah, hscript, hclock, hreads⟩ := sendAll_frame saddr (respPackets s.ah.rtid iov) s
  have hsend : Keeps s (sendAll saddr (respPackets s.ah.rtid iov) s).2 :=
    .of_sent (congrArg Handle.sent hah) hclock hreads.ge (hscript ▸ suffix_refl _)
  unfold atpSresp
  split
  · exact .refl
  · dsimp only
    split <;> rename_i heq <;> rw [heq] at hsend
    · exact hsend
    · refine hsend.trans ?_
      split
      · refine ⟨rfl, Nat.le_succ _, suffix_refl _, fun a used _ _ _ h => ?_⟩
        obtain ⟨tv, htv, ha⟩ := h
        exact ⟨tv, htv, mem_cons_of_mem _ ha⟩
      · exact .refl

/-! ### Runs -/

/-- The calls of the library. -/
inductive Call where
  | sreq (atpb : Sreq) (respcount : ℤ) (flags : BitVec 8)
  | rresp (saddr : SockaddrAt) (iov : List ℕ)
  | rsel (faddr : SockaddrAt) (func : BitVec 8)
  | rreqTry (saddr : SockaddrAt) (dlen : ℕ)
  | sresp (saddr : SockaddrAt) (iov : List (List UInt8))

/-- The state after a call, if it returns. -/
def Call.exec (s : State) : Call → Option State
  | .sreq atpb respcount flags => some (atpSreq atpb respcount flags s).2
  | .rresp saddr iov => (atpRresp saddr iov s).map (·.2)
  | .rsel faddr func => (atpRsel faddr func s).map (·.2.2)
  | .rreqTry saddr dlen => (atpRreqTry saddr dlen s).map (·.2)
  | .sresp saddr iov => some (atpSresp saddr iov s).2

def run (s : State) (calls : List Call) : Option State := calls.foldlM Call.exec s

theorem Call.exec_keeps {call : Call} (h : call.exec s = some s') : Keeps s s' := by
  cases call with
  | sreq =>
    cases h
    exact atpSreq_keeps ..
  | sresp =>
    cases h
    exact atpSresp_keeps ..
  | rresp =>
    obtain ⟨⟨r, s₁⟩, hcall, rfl⟩ := map_eq_some_iff.mp h
    exact atpRresp_keeps hcall
  | rsel =>
    obtain ⟨⟨rc, faddr', s₁⟩, hcall, rfl⟩ := map_eq_some_iff.mp h
    exact atpRsel_keeps hcall
  | rreqTry =>
    obtain ⟨⟨r, s₁⟩, hcall, rfl⟩ := map_eq_some_iff.mp h
    exact atpRreqTry_keeps hcall

theorem run_keeps {calls : List Call} (h : run s calls = some s') : Keeps s s' := by
  induction calls generalizing s with
  | nil =>
    cases h
    exact .refl
  | cons call calls ih =>
    obtain ⟨s₁, hcall, h⟩ := bind_eq_some_iff.mp h
    exact (Call.exec_keeps hcall).trans (ih h)

/-- The call receives the packet. -/
structure Receives (faddr : SockaddrAt) (func : BitVec 8) (s : State) (saddr : SockaddrAt)
    (p : Packet) (s' : State) : Prop where
  waits : (requesting (if func = 0 then atpFuncany else func) s.ah && s.ah.rbitmap = 0) = false
  recv : rselRecv faddr (if func = 0 then atpFuncany else func) s = some (.got saddr p, s')

theorem Receives.atpRsel {p : Packet} (h : Receives faddr func s saddr p s')
    (hfunc : p.func = atpTreq) : atpRsel faddr func s = some (rselRequest faddr saddr p s') := by
  rw [Atp.atpRsel, rselFunc, h.waits, if_neg Bool.false_ne_true, h.recv, map_some]
  simp only [rselTake, if_pos hfunc]

/-- A request that `atp_rsel` looks up is answered again, and not queued, if the walk finds a saved
answer; these are its packets if all that it may find have the same. -/
theorem rselRequest_zero_iff (p : Packet) {packets : List Packet}
    (hsole : ∀ e ∈ s.ah.sent, e.expired s.now = false → e.isFor saddr p.tid = true →
      e.packets = packets) :
    (∃ s', rselRequest faddr saddr p s = (.zero, faddr, s') ∧
        s'.net.out = s.net.out ++ (named p.bitmap packets).map (saddr, ·) ∧
        s'.ah.queue = s.ah.queue) ↔
      (findDuplicate s.now saddr p.tid false s.ah.sent).1.isSome = true := by
  have hstart := @findDuplicate_eq s.now saddr p.tid false s.ah.sent
  unfold rselRequest
  split <;> rename_i heq <;> rw [heq] at hstart ⊢
  · split_ifs at hstart
    have hfound := find?_some hstart.symm
    rw [Bool.and_eq_true, Bool.not_eq_true'] at hfound
    have hpackets := hsole _ (mem_of_find?_eq_some hstart.symm) hfound.1 hfound.2
    simp [hpackets, State.read]
  · simp

/-- An answer to an exactly-once request stays saved over any calls until it is released or expires.
Where no other unexpired answer has its transaction ID and an address that agrees with the sender's
fields but for zeros, a request for it that `atp_rsel` receives until then is answered with its
packets, and not queued, exactly if the first of the saved answers has not expired. -/
theorem atpRsel_duplicate_iff {s s₁ s₂ s₃ : State} {saddr faddr : SockaddrAt}
    {iov : List (List UInt8)} {calls : List Call} {func : BitVec 8} {p : Packet}
    (hclock : Monotone s.net.clock) (hxo : s.ah.rxo = true)
    (hanswer : atpSresp saddr iov s = (.ok (), s₁)) (hrun : run s₁ calls = some s₂)
    (hrecv : Receives faddr func s₂ saddr p s₃) (hfunc : p.func = atpTreq)
    (htid : p.tid = s.ah.rtid)
    (htrel : ∀ used, s₁.script = used ++ s₃.script →
      ∀ e ∈ used, e.releases (answer saddr iov s) = false)
    (htime : s₃.now - s.now ≤ s.ah.rreltime)
    (hsole : ∀ e ∈ s₃.ah.sent, e.expired s₃.now = false → e.tid = p.tid →
      atAddrEq saddr e.addr = true → ∃ tv, e = { answer saddr iov s with tv := tv }) :
    StillSaved (answer saddr iov s) s₃.ah.sent ∧
      ((∃ s₄, atpRsel faddr func s₂ = some (.zero, faddr, s₄) ∧
          s₄.net.out = s₃.net.out ++ (named p.bitmap (respPackets s.ah.rtid iov)).map (saddr, ·) ∧
          s₄.ah.queue = s₃.ah.queue) ↔
        s₃.ah.sent.head?.any (Saved.expired s₃.now) = false) := by
  obtain ⟨hsent, hscript, hclock₁, hreads⟩ := atpSresp_ok hanswer hxo
  have hkeeps := (run_keeps hrun).trans (rselRecv_keeps hrecv.recv)
  have hclock₃ : s₃.net.clock = s.net.clock := hkeeps.clock.trans hclock₁
  have hsaved : StillSaved (answer saddr iov s) s₃.ah.sent := by
    obtain ⟨used, hused⟩ := hkeeps.script
    refine hkeeps.saved _ used hused.symm (htrel used hused.symm) ?_ ?_
    · -- every reading lies between the answer and now
      intro k hk hk'
      rw [hclock₁]
      have hfirst : s.now ≤ s.net.clock k := hclock (by omega)
      have hlast : s.net.clock k ≤ s₃.now := by
        rw [State.now, hclock₃]
        exact hclock hk'.le
      exact ⟨hfirst, by change s.net.clock k - s.now ≤ s.ah.rreltime; omega⟩
    · exact ⟨_, le_rfl, hsent ▸ mem_cons_self⟩
  refine ⟨hsaved, ?_⟩
  -- so there is an answer for the walk to find
  obtain ⟨tv, htv, ha⟩ := hsaved
  have hfind : (s₃.ah.sent.find? fun e => !e.expired s₃.now && e.isFor saddr p.tid).isSome := by
    have hfor : ({ answer saddr iov s with tv := tv } : Saved).isFor saddr p.tid = true := by
      simp [Saved.isFor, answer, htid]
    have hlive : ({ answer saddr iov s with tv := tv } : Saved).expired s₃.now = false := by
      have hle : s.now ≤ tv := htv
      refine decide_eq_false ?_
      change ¬s₃.now - tv > s.ah.rreltime
      omega
    exact find?_isSome.mpr ⟨_, ha, by rw [hlive, hfor]; rfl⟩
  have hpackets : ∀ e ∈ s₃.ah.sent, e.expired s₃.now = false → e.isFor saddr p.tid = true →
      e.packets = respPackets s.ah.rtid iov := by
    intro e he hexp hfor
    simp only [Saved.isFor, Bool.and_eq_true, decide_eq_true_eq] at hfor
    obtain ⟨tv, rfl⟩ := hsole e he hexp hfor.2 hfor.1
    rfl
  rw [hrecv.atpRsel hfunc]
  simp only [some.injEq]
  rw [rselRequest_zero_iff p hpackets, findDuplicate_eq, Bool.not_false, Bool.true_and]
  split_ifs with hhead
  · simp [hhead]
  · simp [hhead, hfind]

/-- A new endpoint, and what will happen on its socket. -/
def opened (clock : ℕ → ℤ) (script : List Event) : State :=
  ⟨atpOpen 0, ⟨clock, 0, fun _ => true, []⟩, script⟩

def client : SockaddrAt := ⟨128, 1, 10⟩
def other : SockaddrAt := ⟨128, 5, 10⟩
def anyone : SockaddrAt := ⟨0, 0, 0⟩

/-- An exactly-once request with the given release time code and transaction ID, for one packet. -/
def xoRequest (sender : SockaddrAt) (code tid : UInt8) : Event :=
  .datagram sender [3, 0x60 + code, 1, 0, tid, 0, 0, 0, 0]

/-- The endpoint has taken a request of transaction 1. -/
def asked : State :=
  ((atpRreqTry anyone 578 (opened (fun _ => 0)
    [xoRequest client 4 1, xoRequest other 4 1, xoRequest client 4 1])).map (·.2)).getD
      (opened (fun _ => 0) [])

/-- It has answered, and then taken and answered a transaction of the same ID of another client. -/
def answered : State :=
  (run (atpSresp client [[7]] asked).2 [.rreqTry anyone 578, .sresp other [[8]]]).getD asked

/-- The first request comes again, and its answer is sent once more. -/
theorem atpRsel_duplicate_behind_other : ∃ s₄,
    atpRsel anyone atpTreq answered = some (.zero, anyone, s₄) ∧
      s₄.net.out = answered.net.out ++ [(client, ⟨0x90, 0, 1, [7]⟩)] ∧
      s₄.ah.queue = answered.ah.queue := by
  have hanswer : atpSresp client [[7]] asked = (.ok (), (atpSresp client [[7]] asked).2) := rfl
  have hrun : run (atpSresp client [[7]] asked).2 [.rreqTry anyone 578, .sresp other [[8]]] =
    some answered := rfl
  have hrecv : Receives anyone atpTreq answered client ⟨0x64, 1, 1, [0, 0, 0, 0]⟩
      { answered with script := [] } := ⟨rfl, rfl⟩
  have hclock : Monotone asked.net.clock := fun _ _ _ => le_rfl
  refine (atpRsel_duplicate_iff hclock rfl hanswer hrun hrecv rfl rfl ?_ (by decide) ?_).2.mpr rfl
  · intro used hused e he
    obtain rfl : [xoRequest other 4 1, xoRequest client 4 1] = used := by
      rw [append_nil] at hused
      exact hused
    obtain rfl | he := mem_cons.mp he
    · rfl
    · obtain rfl := mem_singleton.mp he
      rfl
  · intro e he
    obtain rfl | he := mem_cons.mp he
    · exact fun _ _ haddr => absurd haddr (by decide)
    · obtain rfl := mem_singleton.mp he
      exact fun _ _ _ => ⟨_, rfl⟩

/-- An answer to transaction 1 with a release time of eight minutes, one to transaction 2 with
thirty seconds, and a minute later the first request again: it is queued once more. -/
theorem atpRsel_queues_duplicate : (do
      let s ← run (opened (fun k => if k < 4 then 0 else 60)
          [xoRequest client 4 1, xoRequest client 0 2, xoRequest client 4 1])
        [.rreqTry anyone 578, .sresp client [[7]], .rreqTry anyone 578, .sresp client [[8]]]
      let (rc, _, s') ← atpRsel anyone atpTreq s
      return (s.ah.sent.any fun e => !e.expired s.now && e.isFor client 1, rc, s'.ah.queue)) =
      some (true, .treq, [(client, ⟨0x64, 1, 1, [0, 0, 0, 0]⟩)]) := by
  decide

end Netatalk.Atp
