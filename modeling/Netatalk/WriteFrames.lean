import Netatalk.WriteFork

/-! # Framing

While the connection stays up, a session reads the input frame by frame: when a request has been
served, its header, its request block and its payload have been read, whoever read them, and
nothing behind them.

* **The connection** stays up when the kernel reports neither its end nor an error on it: a `recv`
  brings bytes or is to be repeated, and a wait does not disconnect the session (`Answer.Up`).
  What the files, the pipe and the splices into it answer is free.
* **Reads** then bring what they are asked for or wait (`dsiStreamRead_up`).
* **Handlers** keep the count of the payload: what they have read and what `datasize` says is left
  is always the payload (`Serves`), and each of them ends with nothing left. -/

namespace Netatalk.DsiStream

open List

variable {α β : Type} {d d' d'' : Dsi} {script : List Answer}

variable {a : Answer} {count length quantum : ℕ} {f : α → Dsi → List Answer → Out β} {h : Header}
  {rest : List UInt8}

theorem Out.andThen_result {o : Out α} {b : β} (h : (o.andThen f).result = some b) :
    ∃ a, o.result = some a ∧ (f a o.dsi o.script).result = some b := by
  unfold Out.andThen at h
  split at h
  · cases h
  · rename_i a ha
    exact ⟨a, ha, h⟩

/-! ### Reads on a connection that stays up -/

def dsiServquantMin : ℕ := 32000

/-- A session that can read: its connection is open and its quantum is one `dsi_tcp_open` sets. -/
structure Ready (d : Dsi) : Prop where
  valid : d.window.Valid
  connected : d.disconnected = false
  socket : 0 ≤ d.socket
  quantum : dsiServquantMin ≤ d.serverQuantum

/-- Answers of a connection that stays up. -/
def Answer.Up (a : Answer) : Prop :=
  a.recv ≠ .data 0 ∧ a.recv ≠ .fails .other ∧ a.wait ≠ .disconnects ∧ a.wait ≠ .fails .other

instance (a : Answer) : Decidable a.Up := by unfold Answer.Up; infer_instance

/-- What no read changes. -/
structure Same (d d' : Dsi) : Prop where
  socket : d'.socket = d.socket
  disconnected : d'.disconnected = d.disconnected
  header : d'.header = d.header
  serverQuantum : d'.serverQuantum = d.serverQuantum

theorem Same.refl (d : Dsi) : Same d d := ⟨rfl, rfl, rfl, rfl⟩

theorem Same.trans (h : Same d d') (h' : Same d' d'') : Same d d'' :=
  ⟨h'.socket.trans h.socket, h'.disconnected.trans h.disconnected, h'.header.trans h.header,
    h'.serverQuantum.trans h.serverQuantum⟩

theorem Same.ready (h : Same d d') (hd : Ready d) (hv : d'.window.Valid) : Ready d' :=
  ⟨hv, h.disconnected.trans hd.connected, h.socket ▸ hd.socket, h.serverQuantum ▸ hd.quantum⟩

/-- A read that has left the session as it was but for the input, and only good answers. -/
structure Steady (d : Dsi) (o : Out α) : Prop where
  same : Same d o.dsi
  up : ∀ a ∈ o.script, a.Up

theorem recv_up {len : ℕ} {r : Except Errno (List UInt8)} (ha : a.Up)
    (hs : 0 ≤ d.socket) (hnet : d.net ≠ []) (hlen : 0 < len) (h : recv d len a.recv = (r, d')) :
    r ≠ .ok [] ∧ r ≠ .error .other := by
  obtain ⟨hdata, hfails, _⟩ := ha
  cases hr : a.recv with
  | fails =>
    rw [hr] at h hfails
    cases h
    exact ⟨by simp, fun hc => hfails (by cases hc; rfl)⟩
  | data k =>
    rw [hr, recv, if_neg hs.not_gt] at h
    cases h
    refine ⟨?_, by simp⟩
    rw [hr] at hdata
    have hk : k ≠ 0 := fun hk => hdata (by rw [hk])
    intro hc
    have hlength := congrArg List.length (Except.ok.inj hc)
    rw [length_take, length_nil] at hlength
    have hpos := length_pos_of_ne_nil hnet
    omega

theorem dsiWaitInput_up {r : Except Errno Unit} (ha : a.Up)
    (h : dsiWaitInput d a.wait = (r, d')) : d' = d ∧ r ≠ .error .other := by
  obtain ⟨_, _, hdisc, hfails⟩ := ha
  cases hw : a.wait with
  | input => rw [hw] at h; cases h; exact ⟨rfl, by simp⟩
  | disconnects => exact absurd hw hdisc
  | fails =>
    rw [hw] at h hfails
    cases h
    exact ⟨rfl, fun hc => hfails (by cases hc; rfl)⟩

/-- A socket read for something waits, brings something or is to be repeated. -/
theorem bufReadSocket_up (hup : ∀ a ∈ script, a.Up) (hs : 0 ≤ d.socket) (hnet : d.net ≠ [])
    (hc : 0 < count) : Steady d (bufReadSocket count script d) ∧
      ((bufReadSocket count script d).result = none → (bufReadSocket count script d).data = []) ∧
      ∀ r, (bufReadSocket count script d).result = some r → r ≠ .ok 0 ∧ r ≠ .error .other := by
  fun_induction bufReadSocket count script d with
  | case1 d script hlt => exact absurd hs hlt.not_ge
  | case2 => exact ⟨⟨.refl _, by simp [Out.waits]⟩, fun _ => rfl, by simp [Out.waits]⟩
  | case3 d _ a script bs d' hr =>
    have hne := (recv_up (hup a mem_cons_self) hs hnet hc hr).1
    obtain ⟨_, rest, _, rfl⟩ := recv_ok hr
    refine ⟨⟨⟨rfl, rfl, rfl, rfl⟩, (forall_mem_cons.mp hup).2⟩, by simp, ?_⟩
    rintro _ ⟨⟩
    exact ⟨fun hz => hne (by rw [length_eq_zero_iff.mp (Except.ok.inj hz)]), by simp⟩
  | case4 d _ a script d' hr _ d'' hw ih =>
    obtain rfl := recv_error hr
    obtain ⟨rfl, _⟩ := dsiWaitInput_up (hup a mem_cons_self) hw
    exact ih (forall_mem_cons.mp hup).2 hs hnet
  | case5 d _ a script d' hr e d'' hw =>
    obtain rfl := recv_error hr
    obtain ⟨rfl, hne⟩ := dsiWaitInput_up (hup a mem_cons_self) hw
    refine ⟨⟨.refl _, (forall_mem_cons.mp hup).2⟩, fun _ => rfl, ?_⟩
    rintro _ ⟨⟩
    exact ⟨by simp, fun he => hne (by rw [Except.error.inj he])⟩
  | case6 d _ a script e d' _ hr =>
    have hne := (recv_up (hup a mem_cons_self) hs hnet hc hr).2
    obtain rfl := recv_error hr
    refine ⟨⟨.refl _, (forall_mem_cons.mp hup).2⟩, fun _ => rfl, ?_⟩
    rintro _ ⟨⟩
    exact ⟨by simp, fun he => hne (by rw [Except.error.inj he])⟩

theorem same_fromBuf (d : Dsi) (count : ℕ) : Same d (fromBuf d count).2 := by
  fun_cases fromBuf d count <;> exact ⟨rfl, rfl, rfl, rfl⟩

/-- What a `buf_read` of at most `count` bytes does on a connection that stays up: it waits, brings
something, or is to be repeated. -/
structure Brings (d : Dsi) (count : ℕ) (o : Out (Except Errno ℕ)) : Prop extends Steady d o where
  ready : Ready o.dsi
  pending : d.pending = o.data ++ o.dsi.pending
  waits : o.result = none → o.data = []
  length : ∀ r, o.result = some r → o.data.length = copied r ∧ copied r ≤ count
  progress : ∀ r, o.result = some r → r ≠ .ok 0 ∧ r ≠ .error .other

theorem bufRead_up (hd : Ready d) (hup : ∀ a ∈ script, a.Up) (hc : 0 < count)
    (hp : d.pending ≠ []) : Brings d count (bufRead d count script) := by
  have hreads := reads_bufRead count script hd.valid
  suffices h : Steady d (bufRead d count script) ∧
      ((bufRead d count script).result = none → (bufRead d count script).data = []) ∧
      ∀ r, (bufRead d count script).result = some r → r ≠ .ok 0 ∧ r ≠ .error .other from
    ⟨h.1, h.1.same.ready hd hreads.valid, hreads.pending, h.2.1, fun r hr => length_bufRead hr,
      h.2.2⟩
  have hsame := same_fromBuf d count
  have hfrom := reads_fromBuf count hd.valid
  unfold bufRead
  rw [if_neg hc.ne']
  split
  · rename_i d₁ heq
    have hnil := unread_of_fromBuf hc.ne' hd.valid (by rw [heq])
    rw [heq] at hsame hfrom hnil
    have hnet : d₁.net ≠ [] := by
      intro hnet
      apply hp
      rw [hfrom.pending, Dsi.pending, hnil, hnet]
      rfl
    obtain ⟨hsteady, hbrings⟩ := bufReadSocket_up hup (hsame.socket ▸ hd.socket) hnet hc
    exact ⟨⟨hsame.trans hsteady.same, hsteady.up⟩, hbrings⟩
  · rename_i bs d₁ hne heq
    rw [heq] at hsame
    refine ⟨⟨hsame, hup⟩, by simp, ?_⟩
    rintro r ⟨⟩
    refine ⟨fun hz => hne ?_, by simp⟩
    exact length_eq_zero_iff.mp (Except.ok.inj hz)

theorem dsiStreamReadLoop_up {length stored : ℕ} (hd : Ready d) (hup : ∀ a ∈ script, a.Up)
    (hs : stored ≤ length) (hp : length - stored ≤ d.pending.length) :
    Steady d (dsiStreamReadLoop length stored d script) ∧
      ((dsiStreamReadLoop length stored d script).result = none →
        stored + (dsiStreamReadLoop length stored d script).data.length < length) ∧
      ∀ n, (dsiStreamReadLoop length stored d script).result = some n →
        n = length ∧ stored + (dsiStreamReadLoop length stored d script).data.length = length := by
  have hbuf {stored : ℕ} {d : Dsi} {script : List Answer} {o} (hd : Ready d)
      (hup : ∀ a ∈ script, a.Up) (hlt : stored < length)
      (hp : length - stored ≤ d.pending.length)
      (heq : bufRead d (length - stored) script = o) : Brings d (length - stored) o :=
    heq ▸ bufRead_up hd hup (by omega) (ne_nil_of_length_pos (by omega))
  fun_induction dsiStreamReadLoop length stored d script with
  | case1 stored d script hlt data d' script' heq =>
    have h := hbuf hd hup hlt hp heq
    have hdata : data = [] := h.waits rfl
    refine ⟨{ h with }, fun _ => ?_, by simp⟩
    rw [hdata]
    exact hlt
  | case2 stored d script hlt data e d' script' heq _ o ih =>
    have h := hbuf hd hup hlt hp heq
    have hlen : data.length = 0 := (h.length _ rfl).1
    have hnil : data = [] := length_eq_zero_iff.mp hlen
    have hpending : d.pending = data ++ d'.pending := h.pending
    rw [hnil, nil_append] at hpending
    obtain ⟨hsteady, hwaits, hbrings⟩ := ih h.ready h.up hs (hpending ▸ hp)
    rw [hnil]
    exact ⟨⟨h.same.trans hsteady.same, hsteady.up⟩, hwaits, hbrings⟩
  | case3 stored d script hlt data e d' script' heq hne =>
    have h := hbuf hd hup hlt hp heq
    have hother := (h.progress _ rfl).2
    cases e with
    | again => exact absurd (.inr rfl) hne
    | intr => exact absurd (.inl rfl) hne
    | other => exact absurd rfl hother
  | case4 stored d script hlt data n d' script' heq _ o ih =>
    have h := hbuf hd hup hlt hp heq
    obtain ⟨hlen, hle⟩ : data.length = n ∧ n ≤ length - stored := h.length _ rfl
    have hpending := congrArg List.length h.pending
    rw [length_append] at hpending
    dsimp only at hpending
    obtain ⟨hsteady, hwaits, hbrings⟩ := ih h.ready h.up (by omega) (by omega)
    have hdata : stored + (data ++ o.data).length = stored + n + o.data.length := by
      rw [length_append]
      omega
    refine ⟨⟨h.same.trans hsteady.same, hsteady.up⟩, ?_, ?_⟩
    · intro hn
      rw [hdata]
      exact hwaits hn
    · intro m hm
      rw [hdata]
      exact hbrings m hm
  | case5 stored d script hlt data n d' script' heq hz =>
    have h := hbuf hd hup hlt hp heq
    have hzero := (h.progress _ rfl).1
    exact absurd (by rw [Nat.eq_zero_of_not_pos hz]) hzero
  | case6 stored d script hge =>
    refine ⟨⟨.refl _, hup⟩, by simp [Out.ret], ?_⟩
    rintro n ⟨⟩
    have heq : stored = length := by omega
    exact ⟨heq, heq⟩

/-! ### Calls that read at most so many bytes -/

/-- A call that keeps a connection that stays up, reads at most `n` bytes, waits only while it has
read fewer, and has come to `P` when it returns: its result, how much it has read and the session it
leaves. -/
structure Within (n : ℕ) (P : α → ℕ → Dsi → Prop) (d : Dsi) (o : Out α) : Prop where
  takes : Takes d o.data o.dsi
  ready : Ready o.dsi
  quantum : o.dsi.serverQuantum = d.serverQuantum
  up : ∀ a ∈ o.script, a.Up
  waits : o.result = none → o.data.length < n
  returns : ∀ a, o.result = some a → o.data.length ≤ n ∧ P a o.data.length o.dsi

section Within
variable {n m : ℕ} {P : α → ℕ → Dsi → Prop} {Q : β → ℕ → Dsi → Prop} {o : Out α}

theorem Within.ret {a : α} (hd : Ready d) (hup : ∀ a ∈ script, a.Up) (hp : P a 0 d) :
    Within n P d (.ret a d script) where
  takes := .of_eq hd.valid rfl rfl
  ready := hd
  quantum := rfl
  up := hup
  waits := by simp [Out.ret]
  returns := by
    rintro b ⟨⟩
    exact ⟨zero_le, hp⟩

theorem Within.mono {P' : α → ℕ → Dsi → Prop} (h : Within n P d o) (hn : n ≤ m)
    (hp : ∀ a k d', k ≤ n → P a k d' → P' a k d') : Within m P' d o := by
  refine { h with waits := fun hnone => (h.waits hnone).trans_le hn, returns := ?_ }
  intro a ha
  have hret := h.returns a ha
  exact ⟨hret.1.trans hn, hp a _ _ hret.1 hret.2⟩

/-- A call is judged by the input it starts with. -/
theorem Within.of_start (d₀ : Dsi) (h : Within n P d₀ o) (hw : d₀.window = d.window)
    (hn : d₀.net = d.net) (hq : d₀.serverQuantum = d.serverQuantum) : Within n P d o :=
  { h with
    takes := .of_start d₀ h.takes hw hn
    quantum := h.quantum.trans hq }

theorem Within.held (h : Within n P d o) (hp : n ≤ d.pending.length) :
    n - o.data.length ≤ o.dsi.pending.length := by
  have hlen := congrArg List.length h.takes.pending
  rw [length_append] at hlen
  omega

/-- One call after the other: the second may read what the first has left. -/
theorem Within.bind (h : Within n P d o)
    (hf : ∀ a, o.result = some a → o.data.length ≤ n → P a o.data.length o.dsi →
      Within (n - o.data.length) (fun b k d' => Q b (o.data.length + k) d') o.dsi
        (f a o.dsi o.script)) : Within n Q d (o.andThen f) := by
  unfold Out.andThen
  split
  · rename_i hnone
    exact { h with waits := fun _ => h.waits hnone, returns := by simp }
  · rename_i a ha
    obtain ⟨hle, hp⟩ := h.returns a ha
    have hnext := hf a ha hle hp
    refine ⟨h.takes.trans hnext.takes, hnext.ready, hnext.quantum.trans h.quantum, hnext.up, ?_, ?_⟩
    · intro hnone
      have hlt := hnext.waits hnone
      rw [length_append]
      omega
    · intro b hb
      obtain ⟨hle', hq⟩ := hnext.returns b hb
      rw [length_append]
      exact ⟨by omega, hq⟩

theorem Within.andThen (h : Within n P d o)
    (hp : n ≤ d.pending.length)
    (hf : ∀ a k d' script, k ≤ n → P a k d' → Ready d' → n - k ≤ d'.pending.length →
      (∀ a ∈ script, a.Up) →
      Within (n - k) (fun b j d'' => Q b (k + j) d'') d' (f a d' script)) :
    Within n Q d (o.andThen f) :=
  h.bind fun a _ hle hpa => hf a _ _ _ hle hpa h.ready (h.held hp) h.up

end Within

section
variable (hd : Ready d) (hup : ∀ a ∈ script, a.Up)
include hd hup

/-- On a connection that stays up `dsi_stream_read` brings all it is asked for, or waits. -/
theorem within_dsiStreamRead (hp : length ≤ d.pending.length) : Within length
      (fun n k d' => n = length ∧ k = length ∧ d'.header = d.header ∧ d'.datasize = d.datasize) d
      (dsiStreamRead d length script) := by
  have hreads := reads_dsiStreamRead length script hd.valid
  have heq : dsiStreamRead d length script = dsiStreamReadLoop length 0 d script := by
    rw [dsiStreamRead, hd.connected]
    rfl
  obtain ⟨hsteady, hwaits, hbrings⟩ :=
    @dsiStreamReadLoop_up d script length 0 hd hup zero_le hp
  simp only [Nat.zero_add] at hwaits hbrings
  rw [heq] at hreads ⊢
  refine ⟨hreads.toTakes, hsteady.same.ready hd hreads.valid, hsteady.same.serverQuantum,
    hsteady.up, hwaits, ?_⟩
  intro n hn
  obtain ⟨hlen, hdata⟩ := hbrings n hn
  exact ⟨hdata.le, hlen, hdata, hsteady.same.header, hreads.datasize⟩

theorem within_fromBuf {length : ℕ} :
    Within length (fun (_ : Unit) k _ => k = (fromBuf d length).1.length) d
      ⟨(fromBuf d length).1, some (), (fromBuf d length).2, script⟩ where
  takes := (reads_fromBuf length hd.valid).toTakes
  ready := (same_fromBuf d length).ready hd (reads_fromBuf length hd.valid).valid
  quantum := (same_fromBuf d length).serverQuantum
  up := hup
  waits := by simp
  returns _ _ := ⟨length_fromBuf d length, rfl⟩

theorem within_refill {n : ℕ} (hn : 0 < n) :
    Within n (fun _ k _ => k = 0) d (refill d script) := by
  have hreads := reads_refill script hd.valid
  have hdata : (refill d script).data = [] := by
    fun_cases refill d script <;> rfl
  have hsteady : Steady d (refill d script) := by
    fun_cases refill d script with
    | case1 => exact ⟨.refl _, by simp [Out.waits]⟩
    | case2 buflen _ a script bs d' hr =>
      obtain ⟨_, rest, _, rfl⟩ := recv_ok hr
      exact ⟨⟨rfl, rfl, rfl, rfl⟩, (forall_mem_cons.mp hup).2⟩
    | case3 buflen _ a script e d' hr =>
      obtain rfl := recv_error hr
      exact ⟨.refl _, (forall_mem_cons.mp hup).2⟩
    | case4 => exact ⟨.refl _, hup⟩
  refine ⟨hreads.toTakes, hsteady.same.ready hd hreads.valid, hsteady.same.serverQuantum,
    hsteady.up, fun _ => ?_, fun _ _ => ?_⟩
  · rw [hdata]
    exact hn
  · rw [hdata]
    exact ⟨zero_le, rfl⟩

theorem within_dsiBufferedStreamRead (hp : length ≤ d.pending.length) :
    Within length (fun n k _ => n = length ∧ k = length) d
      (dsiBufferedStreamRead d length script) := by
  have hfrom := @within_fromBuf d script hd hup length
  unfold dsiBufferedStreamRead
  generalize fromBuf d length = b at hfrom
  obtain ⟨bs, d₁⟩ := b
  dsimp only at hfrom
  refine hfrom.andThen hp ?_
  rintro _ k d₂ script hle rfl hready hheld hup
  split_ifs with hall
  · exact .ret hready hup ⟨rfl, hall⟩
  · refine (within_refill hready hup (by omega)).andThen hheld ?_
    rintro _ k d₃ script - rfl hready hheld hup
    rw [Nat.sub_zero] at hheld ⊢
    refine (within_dsiStreamRead hready hup hheld).andThen hheld ?_
    rintro n k d₄ script - ⟨rfl, rfl, -, -⟩ hready hheld hup
    refine .ret hready hup ⟨?_, by omega⟩
    rw [if_pos rfl]
    omega

end

/-! ### The frames `dsi_stream_receive` accepts -/

/-- The header of a frame as `dsi_stream_receive` leaves it in the session. -/
def requestHeader (f : List UInt8) : Header :=
  let h := parseHeader (f.take dsiBlocksiz)
  { h with doff := writeOffset h }

/-- A frame `dsi_stream_receive` accepts: a header it does not refuse, and as many bytes as that
says. -/
structure Accepted (quantum : ℕ) (f : List UInt8) : Prop where
  command : (requestHeader f).command ≠ 0
  lengths : lengthsOk (requestHeader f) quantum
  length : f.length = dsiBlocksiz + (requestHeader f).len

theorem commandLength_le (hok : lengthsOk h quantum) : commandLength h ≤ h.len := by
  simp only [lengthsOk, commandLength] at hok ⊢
  split_ifs at hok ⊢ with hw hc <;> simp_all

/-- The request block a frame with an AFP command carries fits the command buffer. -/
theorem commandLength_bounds (hok : lengthsOk h quantum) (hquantum : dsiServquantMin ≤ quantum)
    (hc : h.command = dsifuncCmd ∨ h.command = dsifuncWrite) :
    1 ≤ commandLength h ∧ commandLength h ≤ quantum := by
  simp only [dsiServquantMin] at hquantum
  simp only [lengthsOk, commandLength, decide_eq_true_eq] at hok ⊢
  obtain ⟨hlengths, hnonempty⟩ := hok
  have hpos := hnonempty hc
  by_cases hw : h.command = dsifuncWrite
  · rw [if_pos hw] at hlengths
    obtain ⟨hdoff, hle, _⟩ := hlengths
    simp only [dsiWroffFpwrite, dsiWroffFpwriteext] at hdoff
    rw [if_pos ⟨hw, by omega⟩]
    omega
  · rw [if_neg hw] at hlengths
    rw [if_neg fun h => hw h.1]
    exact ⟨hpos, hlengths⟩

section
variable (hd : Ready d) (hup : ∀ a ∈ script, a.Up)
include hd hup

theorem within_requestBlock (hp : commandLength h ≤ d.pending.length) : Within (commandLength h)
      (fun cmd k d' => cmd = h.command ∧ k = commandLength h ∧ d'.header = h) d
      ((dsiStreamRead { d with header := h, cmdlen := commandLength h } (commandLength h)
        script).andThen fun n d script => .ret (if n = commandLength h then h.command else 0) d
          script) := by
  have hready : Ready { d with header := h, cmdlen := commandLength h } :=
    { hd with }
  refine .of_start _ ((within_dsiStreamRead hready hup hp).andThen hp ?_) rfl rfl rfl
  rintro n k d' script - ⟨rfl, rfl, hheader, -⟩ hready _ hup
  exact .ret hready hup ⟨if_pos rfl, rfl, hheader⟩

/-- The header `dsi_stream_receive` reads is that of the next frame. -/
theorem header_of_frame {f : List UInt8} {n : ℕ}
    (hp : d.pending = f ++ rest) (hf : dsiBlocksiz ≤ f.length)
    (h : (dsiBufferedStreamRead d dsiBlocksiz script).result = some n) :
    n = dsiBlocksiz ∧ (dsiBufferedStreamRead d dsiBlocksiz script).data = f.take dsiBlocksiz := by
  have hheld : dsiBlocksiz ≤ d.pending.length := by
    rw [hp, length_append]
    omega
  have hblock := within_dsiBufferedStreamRead hd hup hheld
  obtain ⟨_, rfl, hk⟩ := hblock.returns n h
  have htake := congrArg (List.take dsiBlocksiz) (hp.symm.trans hblock.takes.pending)
  rw [take_append_of_le_length hf, take_append_of_le_length hk.ge,
    take_of_length_le hk.le] at htake
  exact ⟨rfl, htake.symm⟩

/-- `dsi_stream_receive` reads the header and the request block of a frame it accepts. -/
theorem within_dsiStreamReceive {f : List UInt8}
    (hp : d.pending = f ++ rest) (hf : Accepted d.serverQuantum f) :
    Within (dsiBlocksiz + commandLength (requestHeader f))
      (fun cmd k d' => cmd = (requestHeader f).command ∧
        k = dsiBlocksiz + commandLength (requestHeader f) ∧ d'.header = requestHeader f) d
      (dsiStreamReceive d script) := by
  have hlen := hf.length
  have hle := commandLength_le hf.lengths
  have hheld : dsiBlocksiz + commandLength (requestHeader f) ≤ d.pending.length := by
    rw [hp, length_append]
    omega
  have hblock := within_dsiBufferedStreamRead hd hup (show dsiBlocksiz ≤ d.pending.length by omega)
  have hmore := hblock.mono (Nat.le_add_right _ (commandLength (requestHeader f)))
    fun _ _ _ _ h => h
  unfold dsiStreamReceive
  rw [hd.connected, if_neg (by simp)]
  refine hmore.bind ?_
  rintro n hn - ⟨rfl, hk⟩
  have hdata := (header_of_frame hd hup hp (by omega) hn).2
  have hcommand : (parseHeader (f.take dsiBlocksiz)).command ≠ 0 := hf.command
  have hlengths := hf.lengths
  have hrest := hmore.held hheld
  rw [← hblock.quantum] at hlengths
  rw [hk, Nat.add_sub_cancel_left] at hrest ⊢
  rw [hdata, if_neg hcommand]
  change Within _ _ _ (if (! lengthsOk (requestHeader f) _) = true then _ else _)
  rw [if_neg (by rw [hlengths]; simp)]
  refine (within_requestBlock hblock.ready hblock.up hrest).mono le_rfl ?_
  rintro cmd k d' - ⟨hcmd, rfl, hheader⟩
  exact ⟨hcmd, rfl, hheader⟩

end

/-- Of the frames that are as long as they say, `dsi_stream_receive` takes those it accepts and
fails on the others. -/
theorem dsiStreamReceive_accepts {f : List UInt8} {cmd : UInt8} (hd : Ready d)
    (hup : ∀ a ∈ script, a.Up) (hp : d.pending = f ++ rest)
    (hlen : f.length = dsiBlocksiz + (requestHeader f).len)
    (h : (dsiStreamReceive d script).result = some cmd) : cmd ≠ 0 ↔ Accepted d.serverQuantum f := by
  constructor
  · intro hcmd
    have hheld : dsiBlocksiz ≤ d.pending.length := by
      rw [hp, length_append]
      omega
    have hquantum := (within_dsiBufferedStreamRead hd hup hheld).quantum
    unfold dsiStreamReceive at h
    rw [hd.connected, if_neg (by simp)] at h
    obtain ⟨n, hn, h⟩ := Out.andThen_result h
    obtain ⟨rfl, hdata⟩ := header_of_frame hd hup hp (by omega) hn
    rw [hdata, if_neg (by simp), hquantum] at h
    dsimp only at h
    split_ifs at h with hcommand hlengths
    · exact absurd (Option.some.inj h).symm hcmd
    · exact absurd (Option.some.inj h).symm hcmd
    · refine ⟨hcommand, ?_, hlen⟩
      rwa [Bool.not_eq_true, Bool.not_eq_false'] at hlengths
  · intro hf
    obtain ⟨_, hcmd, _⟩ := (within_dsiStreamReceive hd hup hp hf).returns cmd h
    rw [hcmd]
    exact hf.command

end Netatalk.DsiStream

namespace Netatalk.WriteFrames

open List DsiStream

variable {α β : Type} {d d' : Dsi} {script : List Answer}

/-! ### The count of the payload -/

/-- A session with the rest of a payload, which is in the input. -/
structure Due (d : Dsi) : Prop where
  ready : Ready d
  held : d.datasize ≤ d.pending.length

/-- A call that keeps the count: what it has read and what `datasize` says is left make up what was
left before.  It waits only while something is left. -/
def Serves (P : α → Dsi → Prop) (d : Dsi) (o : Out α) : Prop :=
  Within d.datasize (fun a k d' => k + d'.datasize = d.datasize ∧ P a d') d o

/-- Nothing of the payload is left. -/
def Emptied (_ : α) (d : Dsi) : Prop := d.datasize = 0

section Serves
variable {P : α → Dsi → Prop} {Q : β → Dsi → Prop} {o : Out α}

theorem Serves.ret {a : α} (hd : Due d) (hup : ∀ a ∈ script, a.Up) (hp : P a d) :
    Serves P d (.ret a d script) :=
  Within.ret hd.ready hup ⟨zero_add _, hp⟩

variable {f : α → Dsi → List Answer → Out β}

theorem Serves.bind (h : Serves P d o) (hd : Due d)
    (hf : ∀ a, o.result = some a → P a o.dsi → Due o.dsi → Serves Q o.dsi (f a o.dsi o.script)) :
    Serves Q d (o.andThen f) := by
  refine Within.bind h ?_
  intro a ha hle hpa
  have heq : d.datasize - o.data.length = o.dsi.datasize := by
    have hsum := hpa.1
    omega
  have hheld := Within.held h hd.held
  rw [heq] at hheld ⊢
  refine Within.mono (hf a ha hpa.2 ⟨h.ready, hheld⟩) le_rfl ?_
  intro b k d' _ hq
  refine ⟨?_, hq.2⟩
  rw [add_assoc, hq.1, hpa.1]

theorem Serves.andThen (h : Serves P d o) (hd : Due d)
    (hf : ∀ a d' script, P a d' → Due d' → (∀ a ∈ script, a.Up) → Serves Q d' (f a d' script)) :
    Serves Q d (o.andThen f) :=
  h.bind hd fun a _ hpa hd' => hf a _ _ hpa hd' h.up

/-- A call whose result is turned into the reply. -/
theorem Serves.reply {g : α → β} (h : Serves Emptied d o) (hd : Due d) :
    Serves Emptied d (o.andThen fun a d script => .ret (g a) d script) := by
  refine h.andThen hd ?_
  intro _ d' script hempty hd' hup
  exact .ret hd' hup hempty

end Serves

variable {e : WriteEnv} {eid : Eid} {f rest : List UInt8} {offset : ℤ} {ofork : Ofork}
  {quantum rounds : ℕ}

section
variable (hd : Due d) (hup : ∀ a ∈ script, a.Up)
include hd hup

theorem serves_dsiWrite (buflen : ℕ) :
    Serves (fun n d' => n = min buflen d.datasize ∧ n + d'.datasize = d.datasize) d
      (dsiWrite d buflen script) := by
  unfold dsiWrite
  dsimp only
  split_ifs with hpos
  · have hle : min buflen d.datasize ≤ d.datasize := min_le_right _ _
    have hread := within_dsiStreamRead hd.ready hup (hle.trans hd.held)
    refine (hread.mono hle fun _ _ _ _ h => h).andThen hd.held ?_
    rintro n k d' script - ⟨rfl, rfl, -, hsize⟩ hready hheld hup
    refine .of_start { d' with datasize := d'.datasize - min buflen d.datasize }
      (.ret { hready with } hup ?_) rfl rfl rfl
    dsimp only
    exact ⟨by omega, rfl, by omega⟩
  · exact .ret hd hup ⟨by omega, zero_add _⟩

theorem serves_dsiWriteflushLoop (hr : d.datasize ≤ rounds) :
    Serves Emptied d (dsiWriteflushLoop rounds d script) := by
  induction rounds generalizing d script with
  | zero => exact .ret hd hup (Nat.le_zero.mp hr)
  | succ rounds ih =>
    rw [dsiWriteflushLoop]
    split_ifs with hpos
    · have hn : 0 < min dsiDatasiz d.datasize := lt_min (by decide) hpos
      have hle : min dsiDatasiz d.datasize ≤ d.datasize := min_le_right _ _
      have hread := within_dsiStreamRead hd.ready hup (hle.trans hd.held)
      refine (hread.mono hle fun _ _ _ _ h => h).andThen hd.held ?_
      rintro n k d' script - ⟨rfl, rfl, -, hsize⟩ hready hheld hup
      rw [if_pos hn]
      have hrest : Due { d' with datasize := d'.datasize - min dsiDatasiz d.datasize } :=
        ⟨{ hready with }, hsize ▸ hheld⟩
      refine .of_start _ ((ih hrest hup (by simp only; omega)).mono (by simp only; omega) ?_)
        rfl rfl rfl
      rintro _ k d'' - ⟨hsum, hempty⟩
      exact ⟨by simp only at hsum; omega, hempty⟩
    · exact .ret hd hup (Nat.eq_zero_of_not_pos hpos)

theorem serves_dsiWriteflush : Serves Emptied d (dsiWriteflush d script) :=
  serves_dsiWriteflushLoop hd hup le_rfl

/-- Bytes spliced from the socket are the next of the payload when the read-ahead buffer is
empty. -/
theorem serves_splice {n : ℕ} (hempty : d.window.unread = []) (hn : n ≤ d.datasize) :
    Serves (fun (_ : Unit) d' => d'.window.unread = []) d
      ⟨d.net.take n, some (),
        { d with net := d.net.drop n, datasize := d.datasize - (d.net.take n).length },
        script⟩ := by
  have hlen : (d.net.take n).length ≤ d.datasize := (length_take_le _ _).trans hn
  have hready := hd.ready
  refine ⟨⟨hready.valid, rfl, ?_⟩, { hready with }, rfl, hup, by simp, ?_⟩
  · simp only [Dsi.pending, hempty, nil_append, take_append_drop]
  · rintro _ -
    exact ⟨hlen, Nat.add_sub_of_le hlen, hempty⟩

theorem serves_dsiWriteFileLoop {spliceSize written : ℕ} {rounds : List Round}
    (hempty : d.window.unread = []) (hrounds : ∀ r ∈ rounds, r.wait ≠ .disconnects) :
    Serves (fun _ _ => True) d (dsiWriteFileLoop spliceSize rounds written offset d script) := by
  induction rounds generalizing d written offset script with
  | nil =>
    rw [dsiWriteFileLoop]
    split_ifs with hpos
    · exact ⟨.of_eq hd.ready.valid rfl rfl, hd.ready, rfl, by simp [Out.waits], fun _ => hpos,
        by simp [Out.waits]⟩
    · exact .ret hd hup trivial
  | cons r rounds ih =>
    obtain ⟨hwait, hnext⟩ := forall_mem_cons.mp hrounds
    rw [dsiWriteFileLoop]
    by_cases hpos : 0 < d.datasize
    · rw [if_pos hpos, if_neg hd.ready.socket.not_gt]
      cases r.splice with
      | intr => exact ih hd hup hempty hnext
      | again =>
        dsimp only
        split_ifs
        · exact .ret hd hup trivial
        · cases hw : r.wait with
          | input => exact ih hd hup hempty hnext
          | disconnects => exact absurd hw hwait
          | fails => exact .ret hd hup trivial
      | refuses => exact .ret hd hup trivial
      | fails => exact .ret hd hup trivial
      | data k =>
        dsimp only
        split_ifs
        · exact .ret hd hup trivial
        · exact .ret hd hup trivial
        · have hle : min k (min d.datasize spliceSize) ≤ d.datasize :=
            (min_le_right _ _).trans (min_le_left _ _)
          refine (serves_splice hd hup hempty hle).andThen hd ?_
          intro _ d' script hempty' hd' hup
          split
          · exact .ret hd' hup trivial
          · exact .ret hd' hup trivial
          · exact ih hd' hup hempty' hnext
    · rw [if_neg hpos]
      exact .ret hd hup trivial

theorem serves_adRecvfile (hempty : d.datasize = 0 ∨ d.window.unread = [])
    (hrounds : ∀ r ∈ e.rounds, r.wait ≠ .disconnects) :
    Serves (fun _ _ => True) d (adRecvfile e ofork offset d script) := by
  unfold adRecvfile dsiWriteFile
  split_ifs with _ _ hnone
  · exact .ret hd hup trivial
  · exact .ret hd hup trivial
  · exact .ret hd hup trivial
  · exact .ret hd hup trivial
  · exact serves_dsiWriteFileLoop hd hup (hempty.resolve_left fun hz => hnone (.inl hz)) hrounds

theorem serves_writeRestLoop :
    Serves (fun _ _ => True) d (writeRestLoop e eid rounds offset d script) := by
  induction rounds generalizing d offset script with
  | zero => exact .ret hd hup trivial
  | succ rounds ih =>
    rw [writeRestLoop]
    refine (serves_dsiWrite hd hup d.serverQuantum).andThen hd ?_
    rintro len d' script - hd' hup
    split_ifs
    · split
      · exact .ret hd' hup trivial
      · exact ih hd' hup
    · exact .ret hd' hup trivial

theorem serves_iconBytes {bsize got : ℕ} (hsum : got + d.datasize = bsize)
    (hr : d.datasize ≤ rounds) :
    Serves Emptied d (iconBytes bsize rounds got d script) := by
  induction rounds generalizing d got script with
  | zero => exact .ret hd hup (Nat.le_zero.mp hr)
  | succ rounds ih =>
    rw [iconBytes]
    split_ifs with hlt
    · refine (serves_dsiWrite hd hup (bsize - got)).andThen hd ?_
      rintro n d' script ⟨hn, hleft⟩ hd' hup
      rw [if_pos (by omega)]
      exact ih hd' hup (by omega) (by omega)
    · exact .ret hd hup (show d.datasize = 0 by omega)

end

/-- The session as `dsi_writeinit` begins to count: the whole payload is left. -/
def begun (d : Dsi) : Dsi := { d with datasize := d.header.len - d.header.doff }

section
variable (hd : Due (begun d)) (hle : d.header.doff ≤ d.header.len) (hup : ∀ a ∈ script, a.Up)
include hd hle hup

/-- After `dsi_writeinit` the read-ahead buffer holds nothing, or the payload is at its end. -/
theorem serves_dsiWriteinit : Serves (fun _ d' => d'.datasize = 0 ∨ d'.window.unread = []) (begun d)
      (dsiWriteinit d script) := by
  have hv : d.window.Valid := hd.ready.valid
  have htakes := (takes_dsiWriteinit script hv).of_start (d := begun d) d rfl rfl
  revert htakes
  fun_cases dsiWriteinit d script with
  | case1 hlt => exact absurd hle hlt.not_ge
  | case2 _ datasize hwin bytes w =>
    intro htakes
    have hlen : (d.window.peekAt bytes).length = bytes := by
      rw [Window.peekAt_eq _ (min_le_left _ _), length_take, Window.length_unread hv]
      exact min_eq_left (min_le_left _ _)
    have hbytes : bytes ≤ datasize := min_le_right _ _
    have hready := hd.ready
    refine ⟨htakes, { hready with valid := htakes.valid }, rfl, hup,
      by simp, ?_⟩
    rintro n -
    dsimp only
    rw [hlen]
    refine ⟨hbytes, Nat.add_sub_of_le hbytes, ?_⟩
    -- what is left of the payload has taken all the buffer held
    by_cases hall : bytes = datasize
    · exact .inl (by omega)
    · have heof : w.eof ≤ w.start := by
        change d.window.eof ≤ d.window.start + bytes
        omega
      rw [if_pos heof]
      exact .inr rfl
  | case3 _ datasize hwin =>
    intro _
    exact Serves.ret hd hup (.inr (Window.unread_eq_nil (not_lt.mp hwin)))

/-- `dsi_writedrain` leaves nothing of the payload of a write. -/
theorem serves_dsiWritedrain (hw : d.header.command = dsifuncWrite) :
    Serves Emptied (begun d) (dsiWritedrain d script) := by
  unfold dsiWritedrain
  rw [if_neg (not_not.mpr hw)]
  refine (serves_dsiWriteinit hd hle hup).andThen hd ?_
  intro _ d' script _ hd' hup
  exact serves_dsiWriteflush hd' hup

/-! ### FPWrite -/

/-- The payload of a write is read to its end unless there is an error. -/
theorem serves_writePayload {reqcount : ℤ} (hrounds : ∀ r ∈ e.rounds, r.wait ≠ .disconnects) :
    Serves (fun r d' => ∀ offset, r = .ok offset → d'.datasize = 0) (begun d)
      (writePayload e ofork eid offset reqcount d script) := by
  unfold writePayload
  refine (serves_dsiWriteinit hd hle hup).andThen hd ?_
  intro len d' script hempty hd' hup
  split_ifs
  · exact .ret hd' hup (by simp)
  · split
    · exact .ret hd' hup (by simp)
    · refine (serves_adRecvfile hd' hup hempty hrounds).andThen hd' ?_
      rintro r d' script - hd' hup
      split
      · exact .ret hd' hup (by simp)
      · refine (serves_writeRestLoop hd' hup).andThen hd' ?_
        rintro r d' script - hd' hup
        refine .ret hd' hup ?_
        intro offset hr
        unfold writeEnd at hr
        split at hr
        · cases hr
        · split_ifs at hr with hpos
          exact Nat.eq_zero_of_not_pos hpos

section
variable {ibuf : ℕ → UInt8} (hw : d.header.command = dsifuncWrite)
include hw

theorem serves_writeFork {ibuflen : ℕ} {is64 : Bool}
    (hrounds : ∀ r ∈ e.rounds, r.wait ≠ .disconnects) :
    Serves Emptied (begun d) (writeFork e ibuf ibuflen is64 d script) := by
  unfold writeFork
  split
  · exact (serves_dsiWritedrain hd hle hup hw).reply hd
  · refine (serves_writePayload hd hle hup hrounds).andThen hd ?_
    intro r d' script hend hd' hup
    split
    · exact .ret hd' hup (hend _ rfl)
    · exact (serves_dsiWriteflush hd' hup).reply hd'

/-! ### FPAddIcon -/

theorem serves_afpAddicon {e : IconEnv} :
    Serves Emptied (begun d) (afpAddicon e ibuf d script) := by
  unfold afpAddicon
  split_ifs
  · exact (serves_dsiWritedrain hd hle hup hw).reply hd
  · refine (serves_dsiWriteinit hd hle hup).andThen hd ?_
    rintro got d' script - hd' hup
    split_ifs with hsize
    · exact (serves_dsiWriteflush hd' hup).reply hd'
    · rw [not_not] at hsize
      exact (serves_iconBytes hd' hup hsize (by omega)).reply hd'

end

end

/-! ### The main loop -/

theorem afpSwitch_ne_command {b : Build} {login : Login} {function : UInt8}
    (h : afpWriteCommand function) : afpSwitch b login function ≠ some .command := by
  simp only [afpWriteCommand, Bool.or_eq_true, decide_eq_true_eq] at h
  have hne : afpWriteExt ≠ afpWrite ∧ afpAddiconCode ≠ afpWrite ∧ afpAddiconCode ≠ afpWriteExt := by
    decide
  cases login with
  | preauth | expired => rcases h with (rfl | rfl) | rfl <;> simp [afpSwitch, afpWrite, afpWriteExt,
      afpAddiconCode]
  | postauth =>
    rcases h with (rfl | rfl) | rfl
    · simp [afpSwitch]
    · simp [afpSwitch, hne]
    · simp [afpSwitch, hne]

/-- The answers of a request whose connection stays up. -/
structure Request.Up (r : Request) : Prop where
  answers : ∀ a ∈ r.answers, a.Up
  rounds : ∀ round ∈ r.write.rounds, round.wait ≠ .disconnects

section Main
variable {r : Request} {block : List UInt8} {ibuf : ℕ → UInt8}

section
variable (hd : Due (begun d)) (hle : d.header.doff ≤ d.header.len)
  (hw : d.header.command = dsifuncWrite) (hup : ∀ a ∈ script, a.Up) (hr : r.Up)
include hd hle hw hup hr

theorem serves_runHandler {h : Handler}
    (hh : h ≠ .command) : Serves Emptied (begun d) (runHandler r block ibuf d script h) := by
  cases h with
  | write | writeExt => exact (serves_writeFork hd hle hup hw hr.rounds).reply hd
  | addicon => exact (serves_afpAddicon hd hle hup hw).reply hd
  | errpwdexpired => exact ((serves_dsiWritedrain hd hle hup hw).reply hd).reply hd
  | command => exact absurd rfl hh

/-- Whatever the function of a DSIWrite, its payload is read to the end before the reply. -/
theorem serves_serveWrite : Serves Emptied (begun d) (serveWrite r block ibuf d script) := by
  have hdrain := serves_dsiWritedrain hd hle hup hw
  unfold serveWrite
  split
  · rename_i h hh
    split_ifs with hcommand
    · refine serves_runHandler hd hle hw hup hr ?_
      rintro rfl
      exact afpSwitch_ne_command hcommand hh
    · exact hdrain.reply hd
  · exact hdrain.reply hd

end

theorem serveCommand_ret {function : UInt8} (hc : d.header.command ≠ dsifuncWrite) :
    ∃ reply, serveCommand r block function d script = .ret reply d script := by
  unfold serveCommand
  split
  · exact ⟨_, rfl⟩
  · split
    · exact ⟨_, rfl⟩
    · split_ifs
      · exact ⟨_, rfl⟩
      · refine ⟨⟨some .pwdexpr, []⟩, ?_⟩
        rw [afpErrpwdexpired, dsiWritedrain, if_pos hc]
        rfl
      · exact ⟨_, rfl⟩

/-- The frames that carry an AFP command. -/
def IsAfp (h : Header) : Prop := h.command = dsifuncCmd ∨ h.command = dsifuncWrite

/-- The request block of a DSIWrite ends where its header says that the payload begins. -/
theorem commandLength_write {h : Header} (hok : lengthsOk h quantum)
    (hw : h.command = dsifuncWrite) : commandLength h = h.doff ∧ h.doff ≤ h.len := by
  simp only [lengthsOk, decide_eq_true_eq] at hok
  rw [if_pos hw] at hok
  obtain ⟨⟨hdoff, hle, _⟩, _⟩ := hok
  simp only [dsiWroffFpwrite, dsiWroffFpwriteext] at hdoff
  exact ⟨if_pos ⟨hw, by omega⟩, hle⟩

theorem within_dispatch_write (hok : lengthsOk d.header quantum)
    (hw : d.header.command = dsifuncWrite) (hd : Ready d)
    (hheld : d.header.len - d.header.doff ≤ d.pending.length) (hup : ∀ a ∈ script, a.Up) (hr : r.Up)
    : Within (d.header.len - d.header.doff)
      (fun ev k _ => k = d.header.len - d.header.doff ∧ ∃ reply, ev = .reply reply) d
      (dispatch r block d.header.command d script) := by
  have hdue : Due (begun d) := ⟨{ hd with }, hheld⟩
  have hle := (commandLength_write hok hw).2
  unfold dispatch
  rw [hw, if_neg (by decide), if_neg (by decide), if_neg (by decide), if_pos rfl]
  refine .of_start (begun d) ?_ rfl rfl rfl
  refine Within.andThen (serves_serveWrite hdue hle hw hup hr) hheld ?_
  rintro reply k d' script - ⟨hsum, hempty⟩ hready - hup
  refine .ret hready hup ⟨?_, reply, ?_⟩
  · rw [hempty] at hsum
    exact hsum
  · rw [hready.connected]
    rfl

theorem within_dispatch_other (hcommand : d.header.command ≠ 0)
    (hw : d.header.command ≠ dsifuncWrite) (hd : Ready d) (hup : ∀ a ∈ script, a.Up) :
    Within 0 (fun ev k _ => k = 0 ∧ ev ≠ .failed ∧
      (d.header.command = dsifuncCmd → ∃ reply, ev = .reply reply)) d
      (dispatch r block d.header.command d script) := by
  unfold dispatch
  rw [if_neg hcommand]
  split_ifs with hclose hcmd
  · refine .ret hd hup ⟨rfl, by simp, fun hcmd => ?_⟩
    rw [hcmd] at hclose
    exact absurd hclose (by decide)
  · obtain ⟨reply, hreply⟩ := @serveCommand_ret d script r block (block.getD 0 (r.stale 0)) hw
    rw [hreply]
    exact .ret hd hup ⟨rfl, by simp, fun _ => ⟨reply, rfl⟩⟩
  · exact .ret hd hup ⟨rfl, by simp, fun h => absurd h hcmd⟩

/-- What has been read of a frame, and what becomes of it, when the main loop comes to its reply. -/
def Answered (f : List UInt8) (ev : Event) (k : ℕ) (_ : Dsi) : Prop :=
  k = f.length ∧ ev ≠ .failed ∧ (IsAfp (requestHeader f) → ∃ reply, ev = .reply reply)

section
variable (hd : Ready d) (hp : d.pending = f ++ rest) (hf : Accepted d.serverQuantum f) (hr : r.Up)
include hd hp hf hr

/-- A pass of the main loop reads a frame. -/
theorem within_serveFrame : Within f.length (Answered f) d (serveFrame r d).out := by
  have hlen := hf.length
  have hle := commandLength_le hf.lengths
  have hheld : f.length ≤ d.pending.length := by
    rw [hp, length_append]
    omega
  have hreceive := within_dsiStreamReceive hd hr.answers hp hf
  refine Within.andThen (hreceive.mono (by omega) fun _ _ _ _ h => h) hheld ?_
  rintro cmd k d' script - ⟨rfl, rfl, hheader⟩ hready hheld hup
  have hlengths := hf.lengths
  have hcommand := hf.command
  have hleft : f.length - (dsiBlocksiz + commandLength (requestHeader f)) =
      (requestHeader f).len - commandLength (requestHeader f) := by omega
  rw [hleft] at hheld ⊢
  rw [← hheader] at hlengths hcommand hle hlen hheld ⊢
  by_cases hw : d'.header.command = dsifuncWrite
  · obtain ⟨hdoff, _⟩ := commandLength_write hlengths hw
    rw [hdoff] at hle hheld ⊢
    refine (within_dispatch_write hlengths hw hready hheld hup hr).mono le_rfl ?_
    rintro ev k d'' - ⟨rfl, reply, rfl⟩
    exact ⟨by omega, by simp, fun _ => ⟨reply, rfl⟩⟩
  · have hall : commandLength d'.header = d'.header.len := if_neg fun hc => hw hc.1
    rw [hall, Nat.sub_self] at *
    refine (within_dispatch_other hcommand hw hready hup).mono le_rfl ?_
    rintro ev k d'' - ⟨rfl, hfailed, hreply⟩
    refine ⟨by omega, hfailed, fun hafp => hreply ?_⟩
    rw [← hheader] at hafp
    exact hafp.resolve_right hw

/-- The request block handed on is that of the frame. -/
theorem block_serveFrame {block : List UInt8} (hblock : (serveFrame r d).block = some block) :
    block = (f.drop dsiBlocksiz).take (commandLength (requestHeader f)) := by
  have hreceive := within_dsiStreamReceive hd hr.answers hp hf
  have hlen := hf.length
  have hle := commandLength_le hf.lengths
  simp only [serveFrame, Option.map_eq_some_iff] at hblock
  obtain ⟨cmd, hcmd, rfl⟩ := hblock
  obtain ⟨_, _, hk, _⟩ := hreceive.returns cmd hcmd
  have hdata := congrArg (List.take (dsiBlocksiz + commandLength (requestHeader f)))
    (hp.symm.trans hreceive.takes.pending)
  rw [take_append_of_le_length (by omega), take_append_of_le_length hk.ge,
    take_of_length_le hk.le] at hdata
  rw [← hdata, drop_take, Nat.add_sub_cancel_left]

end

/-- Sending leaves the input where it is. -/
theorem sendReply_ahead (sends : List (List Answer)) (hd : Ready d) :
    Ready (sendReply sends d).dsi ∧ (sendReply sends d).dsi.pending = d.pending ∧
      (sendReply sends d).dsi.serverQuantum = d.serverQuantum := by
  induction sends generalizing d with
  | nil => exact ⟨hd, rfl, rfl⟩
  | cons script sends ih =>
    obtain ⟨hreads, _, w, net, hdsi⟩ := reads_dsiPeek script hd.valid
    have hsame : Same d (dsiPeek script d).dsi := hdsi ▸ ⟨rfl, rfl, rfl, rfl⟩
    have hready := hsame.ready hd hreads.valid
    have hpending := hreads.pending
    rw [sendReply]
    unfold Out.andThen
    split
    · exact ⟨hready, hpending.symm, hsame.serverQuantum⟩
    · dsimp only
      split_ifs
      · obtain ⟨hready', hpending', hquantum'⟩ := ih hready
        exact ⟨hready', hpending'.trans hpending.symm, hquantum'.trans hsame.serverQuantum⟩
      · exact ⟨hready, hpending.symm, hsame.serverQuantum⟩

end Main

/-! ### A stream of frames -/

/-- A pass of the main loop that reads the frame `f` and nothing of what comes `after` it. -/
structure Framed (f after : List UInt8) (quantum : ℕ) (s : Served) : Prop where
  /-- The pass starts at the first byte of the frame. -/
  start : s.start.pending = f ++ after
  /-- The request block is that of the frame; one with an AFP command is not empty and fits the
  command buffer. -/
  block : ∀ block, s.block = some block →
    block = (f.drop dsiBlocksiz).take (commandLength (requestHeader f)) ∧
      (IsAfp (requestHeader f) → 1 ≤ block.length ∧ block.length ≤ quantum)
  /-- It waits for input only while the frame is incomplete. -/
  waits : s.out.result = none → ∃ left, left ≠ [] ∧ f = s.out.data ++ left
  /-- When the reply is due the whole frame has been read and nothing else. -/
  served : ∀ ev, s.out.result = some ev → s.out.data = f ∧ s.out.dsi.pending = after ∧
    ev ≠ .failed ∧ (IsAfp (requestHeader f) → ∃ reply, ev = .reply reply)

theorem framed_serveFrame {after : List UInt8} {r : Request} (hd : Ready d)
    (hp : d.pending = f ++ after) (hf : Accepted d.serverQuantum f) (hr : r.Up) :
    Framed f after d.serverQuantum (serveFrame r d) where
  start := hp
  block block hblock := by
    have hlen := hf.length
    have hle := commandLength_le hf.lengths
    have heq := block_serveFrame hd hp hf hr hblock
    have hlength : block.length = commandLength (requestHeader f) := by
      rw [heq, length_take, length_drop]
      omega
    rw [hlength]
    exact ⟨heq, commandLength_bounds hf.lengths hd.quantum⟩
  waits hnone := by
    have hframe := within_serveFrame hd hp hf hr
    have hlt := hframe.waits hnone
    rcases append_eq_append_iff.mp (hp.symm.trans hframe.takes.pending) with
      ⟨more, hdata, _⟩ | ⟨left, hdata, _⟩
    · have hlen := congrArg List.length hdata
      rw [length_append] at hlen
      omega
    · refine ⟨left, ?_, hdata⟩
      rintro rfl
      rw [append_nil] at hdata
      rw [hdata] at hlt
      exact absurd hlt (lt_irrefl _)
  served ev hev := by
    have hframe := within_serveFrame hd hp hf hr
    obtain ⟨_, hk, hfailed, hreply⟩ := hframe.returns ev hev
    obtain ⟨hdata, hafter⟩ := append_inj (hp.symm.trans hframe.takes.pending) hk.symm
    exact ⟨hdata.symm, hafter.symm, hfailed, hreply⟩

/-- The main loop goes on only after a request it has served and replied to. -/
theorem serve_tail {r : Request} {reqs : List Request} {i : ℕ} {s : Served}
    (h : (serve (r :: reqs) d)[i + 1]? = some s) : ∃ ev, (serveFrame r d).out.result = some ev ∧
      (serve reqs (sendReply r.sends (serveFrame r d).out.dsi).dsi)[i]? = some s := by
  rw [serve] at h
  split at h
  · cases h
  · rename_i ev hev
    refine ⟨ev, hev, ?_⟩
    split_ifs at h
    · dsimp only at h
      split at h
      · exact h
      · cases h
    · cases h

/-- On a connection that stays up the passes of the main loop are the frames of the client: whatever
the functions, the login, the forks and the files, each pass starts at the first byte of its frame
and has read its header, request block and payload, and no more, when the reply is due. -/
theorem serve_framed {frames : List (List UInt8)} {rest : List UInt8} {reqs : List Request} {i : ℕ}
    {f : List UInt8} {s : Served} (hd : Ready d)
    (hframes : ∀ f ∈ frames, Accepted d.serverQuantum f)
    (hpending : d.pending = frames.flatten ++ rest) (hup : ∀ r ∈ reqs, r.Up)
    (hf : frames[i]? = some f) (hs : (serve reqs d)[i]? = some s) :
    Framed f ((frames.drop (i + 1)).flatten ++ rest) d.serverQuantum s := by
  induction i generalizing d frames reqs with
  | zero =>
    obtain _ | ⟨g, frames⟩ := frames
    · cases hf
    obtain _ | ⟨r, reqs⟩ := reqs
    · cases hs
    cases hf
    cases hs
    rw [flatten_cons, append_assoc] at hpending
    exact framed_serveFrame hd hpending (hframes f mem_cons_self)
      (hup r mem_cons_self)
  | succ i ih =>
    obtain _ | ⟨g, frames⟩ := frames
    · cases hf
    obtain _ | ⟨r, reqs⟩ := reqs
    · cases hs
    rw [flatten_cons, append_assoc] at hpending
    obtain ⟨hg, hframes⟩ := forall_mem_cons.mp hframes
    obtain ⟨hr, hup⟩ := forall_mem_cons.mp hup
    have hpass := within_serveFrame hd hpending hg hr
    obtain ⟨ev, hev, hs⟩ := serve_tail hs
    obtain ⟨hready, hsent, hquantum⟩ := sendReply_ahead r.sends hpass.ready
    have hnext := ((framed_serveFrame hd hpending hg hr).served ev hev).2.1
    have hq := hquantum.trans hpass.quantum
    rw [← hq]
    refine ih hready ?_ (hsent.trans hnext) hup hf hs
    intro f hf
    rw [hq]
    exact hframes f hf

/-- A read the buffer can serve needs no answer. -/
theorem dsiStreamRead_buffered {length : ℕ} (hd : d.disconnected = false) (hpos : 0 < length)
    (hle : length ≤ d.window.eof - d.window.start) (hv : d.window.Valid) :
    dsiStreamRead d length script =
      ⟨(fromBuf d length).1, some length, (fromBuf d length).2, script⟩ := by
  have hlen : (fromBuf d length).1.length = length := by
    fun_cases fromBuf d length with
    | case1 nbe _ n =>
      rw [Window.peekAt_eq n (Nat.min_le_left _ _), length_take, Window.length_unread hv]
      omega
    | case2 nbe hz => omega
  have hbuf : bufRead d length script =
      ⟨(fromBuf d length).1, some (.ok length), (fromBuf d length).2, script⟩ := by
    rw [bufRead, if_neg hpos.ne']
    generalize fromBuf d length = b at hlen
    obtain ⟨bs, d'⟩ := b
    obtain _ | ⟨x, bs⟩ := bs
    · exact absurd hlen hpos.ne
    · simp only [hlen]
  have hloop : dsiStreamReadLoop length length (fromBuf d length).2 script =
      .ret length (fromBuf d length).2 script := by
    rw [dsiStreamReadLoop, if_neg (lt_irrefl _)]
  rw [dsiStreamRead, hd, if_neg (by simp), dsiStreamReadLoop, if_pos hpos]
  simp only [Nat.sub_zero]
  split <;> rename_i heq <;> rw [hbuf] at heq <;> cases heq
  rw [if_pos hpos, Nat.zero_add, hloop]
  simp [Out.ret]

/-- A data fork open for writing, on a disk that takes what it is given. -/
def openFork : WriteEnv where
  ofFind _ := some ⟨false, true, true, false, false, fun _ => 0, fun _ => 0, false, false⟩
  materializeVirtualIcon := .ok
  strictLocking := false
  adTmplock _ _ _ := true
  adWrite _ _ rbuf := .ok rbuf.length
  recvfile := true
  spliceSize := 4096
  openPipe := true
  rounds := []
  waitErrno := .other

/-- A request of a session logged in with AFP 3.4. -/
def plainRequest : Request where
  build := ⟨true, true⟩
  login := .postauth 34
  answers := []
  stale _ := 0
  write := openFork
  icon := ⟨fun _ => false, fun _ _ => none⟩
  replayed := none
  command _ := ⟨none, []⟩
  sends := []

/-- FPWrite of two bytes, in a DSIWrite frame. -/
def writeFrame : List UInt8 :=
  [0, 6, 0, 1, 0, 0, 0, 12, 0, 0, 0, 14, 0, 0, 0, 0] ++ [33, 0, 0, 1, 0, 0, 0, 0, 0, 0, 0, 2] ++
    [7, 8]

/-- FPFlush, in a DSICommand frame. -/
def commandFrame : List UInt8 :=
  [0, 2, 0, 2, 0, 0, 0, 0, 0, 0, 0, 4, 0, 0, 0, 0] ++ [10, 0, 0, 1]

/-- A session whose read-ahead buffer holds both frames. -/
def twoFrames : Dsi where
  window := ⟨writeFrame ++ commandFrame, 0, 50⟩
  net := []
  socket := 7
  disconnected := false
  header := ⟨0, 0, 0, 0, 0⟩
  cmdlen := 0
  datasize := 0
  serverQuantum := 32000

/-- The session once the request block of the first frame has been read. -/
def atPayload : Dsi :=
  { twoFrames with
    window := ⟨writeFrame ++ commandFrame, 28, 50⟩
    header := requestHeader writeFrame
    cmdlen := 12 }

theorem receive_twoFrames :
    dsiStreamReceive twoFrames [] = ⟨writeFrame.take 28, some 6, atPayload, []⟩ := by
  have hread := @dsiStreamRead_buffered
    { atPayload with window := ⟨writeFrame ++ commandFrame, 16, 50⟩ } [] 12 rfl (by decide)
    (by decide) ⟨by decide, by decide⟩
  calc dsiStreamReceive twoFrames []
      = (Out.mk (writeFrame.take 16) (some 16) atPayload []).andThen fun _ _ _ =>
          (dsiStreamRead { atPayload with window := ⟨writeFrame ++ commandFrame, 16, 50⟩ } 12
            []).andThen fun n d script => .ret (if n = 12 then 6 else 0) d script := by rfl
    _ = _ := by
      rw [hread]
      rfl

theorem serveFrame_twoFrames :
    (serveFrame plainRequest twoFrames).out.result = some (.reply ⟨none, [0, 0, 0, 2]⟩) := by
  simp only [serveFrame, show plainRequest.answers = [] from rfl, receive_twoFrames]
  rfl

/-- After the FPWrite has been served and replied to, the next pass starts at the FPFlush. -/
theorem serve_framed_two : ∃ s, (serve [plainRequest, plainRequest] twoFrames)[1]? = some s ∧
    Framed commandFrame [] 32000 s := by
  have hrun : (serve [plainRequest, plainRequest] twoFrames)[1]? =
      some (serveFrame plainRequest (serveFrame plainRequest twoFrames).out.dsi) := by
    rw [serve, serveFrame_twoFrames]
    rfl
  have hframes : ∀ f ∈ [writeFrame, commandFrame], Accepted 32000 f := by
    intro f hf
    simp only [mem_cons, not_mem_nil, or_false] at hf
    rcases hf with rfl | rfl <;> exact ⟨by decide, by decide, by decide⟩
  have hup : ∀ r ∈ [plainRequest, plainRequest], r.Up := by
    intro r hr
    simp only [mem_cons, not_mem_nil, or_false, or_self] at hr
    subst hr
    exact ⟨by simp [plainRequest], by simp [plainRequest, openFork]⟩
  exact ⟨_, hrun, @serve_framed twoFrames [writeFrame, commandFrame] [] _ 1 _ _
    ⟨⟨by decide, by decide⟩, rfl, by decide, by decide⟩ hframes rfl hup rfl hrun⟩

end Netatalk.WriteFrames
