import Netatalk.CountingSort
import Netatalk.HintWire

/-! # Relaying cache hints

The model of `hint_flush_pending` (`libatalk/util/server_ipc.c`), by which the master passes the
buffered hints of its sessions on.  The batch is sorted by a counting sort, and every session with
a hint pipe is written the hints of the others, in chunks of whole messages.  A chunk with a volume
reset waits once for room in the pipe, while the waits of the second last.

* **The table.**  `children` are the chains of the child table.
* **The pipes.**  `ans` answers the calls of `hint_write_batch` in turn: what the write gives, and
  for a chunk that waits what `poll` and the second write give.
* **The batches.**  What the chunks written to a session held is returned beside the new state. -/

namespace Netatalk.Hint

open List Bytes CountingSort

/-- `HINT_BUF_SIZE`. -/
def hintBufSize : ℕ := 128

/-- `HINT_RESET_WAIT_BUDGET`. -/
def hintResetWaitBudget : ℕ := 4

/-- `hint_buf`: the hints in the order of their arrival. -/
structure HintBuf where
  entries : List HintEntry
  size : entries.length ≤ hintBufSize

/-- A session: its process and the descriptor of its hint pipe. -/
structure Child where
  pid : UInt32
  hintFd : ℤ
deriving DecidableEq, Repr

/-- The state of the master: the buffer, the waits of the second, and `reset_seen` with the volume
tags and their times. -/
structure Master where
  hintBuf : HintBuf
  waitWindow : ℤ
  waitsLeft : ℕ
  resetSeen : List (UInt32 × ℤ)

/-! ### Writing -/

/-- What `write` does: bytes written, a full pipe, or another error. -/
inductive WriteResult where
  | wrote (n : ℕ)
  | again
  | failed
deriving DecidableEq, Repr

/-- What the pipe answers to a chunk: the first write, whether `poll` finds room, and the second
write. -/
structure Answer where
  first : WriteResult
  room : Bool
  second : WriteResult
deriving DecidableEq, Repr

/-- A chunk that was written to a pipe; only a full pipe is tried again. -/
structure Batch where
  bytes : List UInt8
  first : WriteResult
  retry : Option WriteResult
  again_of_retry : retry.isSome → first = .again

/-- The result of the last write of a chunk. -/
def Batch.last (b : Batch) : WriteResult := b.retry.getD b.first

/-- The chunk was written whole. -/
def Batch.delivered (b : Batch) : Bool := b.last = .wrote b.bytes.length

/-- `hint_write_batch`: the chunk as it was written, and the waits left. -/
def hintWriteBatch (ans : Answer) (buf : List UInt8) (hasReset : Bool) (waitsLeft : ℕ) :
    Batch × ℕ :=
  if h : hasReset ∧ 0 < waitsLeft ∧ ans.first = .again then
    -- one wait for room, and the second write when there is some
    (⟨buf, ans.first, if ans.room then some ans.second else none, fun _ => h.2.2⟩, waitsLeft - 1)
  else (⟨buf, ans.first, none, by simp⟩, waitsLeft)

/-! ### One session -/

section
variable (bigEndian : Bool) (ans : ℕ → Answer)

/-- The variables of the loops over the sessions and hints. -/
structure Relay where
  writeBuf : List UInt8
  chunkHasReset : Bool
  waitsLeft : ℕ
  resetLost : Bool
  calls : ℕ
  batches : List Batch

/-- A chunk is written; the buffer is empty afterwards. -/
def Relay.write (r : Relay) : Bool × Relay :=
  let (b, waitsLeft) := hintWriteBatch (ans r.calls) r.writeBuf r.chunkHasReset r.waitsLeft
  (b.delivered,
    { writeBuf := []
      chunkHasReset := false
      waitsLeft := waitsLeft
      resetLost := r.resetLost || (!b.delivered && r.chunkHasReset)
      calls := r.calls + 1
      batches := r.batches ++ [b] })

/-- A hint is put into the buffer. -/
def Relay.put (r : Relay) (e : HintEntry) : Relay :=
  { r with
    writeBuf := r.writeBuf ++ serializeHint bigEndian e
    chunkHasReset := r.chunkHasReset || e.event = .volumeReset }

/-- The loop over the sorted hints for one session. -/
def relayHints (chunkLimit : ℕ) (pid : UInt32) : List HintEntry → Relay → Relay
  | [], r => r
  | e :: es, r =>
    if pid = e.sourcePid then relayHints chunkLimit pid es r
    else
      let r := r.put bigEndian e
      if chunkLimit ≤ r.writeBuf.length then
        match r.write ans with
        | (true, r) => relayHints chunkLimit pid es r
        | (false, r) => r
      else relayHints chunkLimit pid es r

/-- The hints for one session, with the chunk that is left. -/
def relayChild (chunkLimit : ℕ) (pid : UInt32) (sorted : List HintEntry) (r : Relay) : Relay :=
  let r := relayHints bigEndian ans chunkLimit pid sorted r
  if 0 < r.writeBuf.length then (r.write ans).2 else r

/-! ### The flush -/

/-- The order in which the events are delivered. -/
def priority : Event → ℕ
  | .volumeReset => 0
  | .refresh => 1
  | .delete => 2
  | .deleteChildren => 3

/-- The batch in the order of its delivery; the array starts with zeroes. -/
def sortHints (batch : List HintEntry) : List HintEntry :=
  (countingSort (fun e => priority e.event) batch
    (List.replicate hintBufSize ⟨0, 0, .refresh, 0⟩)).take batch.length

/-- `reset_broadcast_forget`. -/
def resetBroadcastForget (seen : List (UInt32 × ℤ)) (tag : UInt32) : List (UInt32 × ℤ) :=
  seen.map fun s => if s.1 = tag then (0, 0) else s

/-- The loop over the sessions: what each was written, the waits left, whether a reset was lost,
and the number of calls. -/
def relayChildren (chunkLimit : ℕ) (sorted : List HintEntry) :
    List Child → ℕ → Bool → ℕ → List (Child × List Batch) × ℕ × Bool
  | [], waitsLeft, resetLost, _ => ([], waitsLeft, resetLost)
  | c :: cs, waitsLeft, resetLost, calls =>
    if c.hintFd < 0 then relayChildren chunkLimit sorted cs waitsLeft resetLost calls
    else
      let r := relayChild bigEndian ans chunkLimit c.pid sorted
        ⟨[], false, waitsLeft, resetLost, calls, []⟩
      let (rest, waitsLeft, resetLost) :=
        relayChildren chunkLimit sorted cs r.waitsLeft r.resetLost r.calls
      ((c, r.batches) :: rest, waitsLeft, resetLost)

/-- `hint_flush_pending` at a second: the number of hints, what each session was written, and the
new state. -/
def hintFlushPending (pipeBuf : ℕ) (now : ℤ) (children : List (List Child)) (m : Master) :
    ℕ × List (Child × List Batch) × Master :=
  let batch := m.hintBuf.entries
  if batch = [] then (0, [], m)
  else
    let waitsLeft := if now ≠ m.waitWindow then hintResetWaitBudget else m.waitsLeft
    let chunkLimit := pipeBuf / msgSize * msgSize
    let (offers, waitsLeft, resetLost) :=
      relayChildren bigEndian ans chunkLimit (sortHints batch) children.flatten waitsLeft false 0
    let lost := if resetLost then batch.filter (fun e => e.event = .volumeReset) else []
    (batch.length, offers,
      { hintBuf := ⟨[], zero_le⟩
        waitWindow := now
        waitsLeft := waitsLeft
        resetSeen := lost.foldl (fun seen e => resetBroadcastForget seen e.cnid) m.resetSeen })

end

/-! ### What a session is offered -/

/-- The hints of a batch for a session: those it did not send, volume resets first, then the
refreshed, deleted and emptied entries, each kind in the order of arrival. -/
def due (batch : List HintEntry) (pid : UInt32) : List HintEntry :=
  [Event.volumeReset, .refresh, .delete, .deleteChildren].flatMap fun event =>
    batch.filter fun e => e.event = event ∧ e.sourcePid ≠ pid

theorem priority_inj {a b : Event} : priority a = priority b ↔ a = b := by
  cases a <;> cases b <;> decide

theorem sortHints_eq (buf : HintBuf) : sortHints buf.entries =
    [Event.volumeReset, .refresh, .delete, .deleteChildren].flatMap fun event =>
      buf.entries.filter fun e => e.event = event := by
  have hlt : ∀ e ∈ buf.entries, priority e.event < 4 := by
    intro e _
    cases e.event <;> decide
  have hkey : ∀ event, ofKey (fun e => priority e.event) buf.entries (priority event) =
      buf.entries.filter fun e => e.event = event := by
    intro event
    refine filter_congr fun e _ => ?_
    rw [decide_eq_decide]
    exact priority_inj
  rw [sortHints, take_countingSort _ hlt (by rw [length_replicate]; exact buf.size)]
  simp only [← hkey]
  rfl

theorem filter_sortHints (buf : HintBuf) (pid : UInt32) :
    (sortHints buf.entries).filter (fun e => e.sourcePid ≠ pid) = due buf.entries pid := by
  rw [sortHints_eq, filter_flatMap]
  congr 1
  funext event
  rw [List.filter_filter]
  refine filter_congr fun e _ => ?_
  simp [Bool.and_comm]

/-! ### Chunks -/

/-- The bytes that a write takes. -/
def WriteResult.count : WriteResult → ℕ
  | .wrote n => n
  | .again => 0
  | .failed => 0

/-- The bytes of a chunk that get into the pipe. -/
def Batch.received (b : Batch) : List UInt8 :=
  (b.first :: b.retry.toList).flatMap fun w => b.bytes.take w.count

/-- The bytes that get into the pipe. -/
def received (batches : List Batch) : List UInt8 := batches.flatMap Batch.received

theorem Batch.received_eq (b : Batch) : b.received = b.bytes.take b.last.count := by
  cases hr : b.retry with
  | none => simp [received, last, hr]
  | some =>
    have hfirst := b.again_of_retry (by rw [hr]; rfl)
    simp [received, last, hr, hfirst, WriteResult.count]

theorem Batch.received_of_delivered {b : Batch} (h : b.delivered = true) :
    b.received = b.bytes := by
  rw [delivered, decide_eq_true_eq] at h
  rw [received_eq, h, WriteResult.count, take_length]

section
variable (bigEndian : Bool) (ans : ℕ → Answer)

/-- The chunks that are written to a session that is due some hints: each holds some whole messages
and at most `PIPE_BUF` bytes, only the last one can fail, together they are the first hints due,
and all of them when no write fails. -/
def Relayed (pipeBuf : ℕ) (all : List HintEntry) (batches : List Batch) : Prop :=
  ∃ chunks : List (List HintEntry),
    batches.map Batch.bytes = chunks.map (serializeHints bigEndian) ∧
    (∀ c ∈ chunks, c ≠ [] ∧ c.length * msgSize ≤ pipeBuf) ∧
    (∀ b ∈ batches.dropLast, b.delivered = true) ∧
    chunks.flatten <+: all ∧
    ((∀ b ∈ batches, b.delivered = true) → chunks.flatten = all)

/-- Every chunk so far was delivered, and the buffer holds the hints that follow. -/
structure Holds (most : ℕ) (chunks : List (List HintEntry)) (pending : List HintEntry)
    (r : Relay) : Prop where
  bytes : r.batches.map Batch.bytes = chunks.map (serializeHints bigEndian)
  sizes : ∀ c ∈ chunks, c ≠ [] ∧ c.length ≤ most
  delivered : ∀ b ∈ r.batches, b.delivered = true
  pending : r.writeBuf = serializeHints bigEndian pending

/-- The last chunk was not delivered, and the buffer is empty. -/
structure Stopped (most : ℕ) (chunks : List (List HintEntry)) (r : Relay) : Prop where
  bytes : r.batches.map Batch.bytes = chunks.map (serializeHints bigEndian)
  sizes : ∀ c ∈ chunks, c ≠ [] ∧ c.length ≤ most
  delivered : ∀ b ∈ r.batches.dropLast, b.delivered = true
  lost : ∃ b ∈ r.batches, b.delivered = false
  empty : r.writeBuf = []

section
variable {bigEndian} {most : ℕ} {chunks : List (List HintEntry)} {pending : List HintEntry}
  {r : Relay}

theorem Holds.put (h : Holds bigEndian most chunks pending r) (e : HintEntry) :
    Holds bigEndian most chunks (pending ++ [e]) (r.put bigEndian e) := by
  refine { h with pending := ?_ }
  rw [Relay.put, h.pending, serializeHints_append]
  simp [serializeHints]

theorem write_batches (r : Relay) : ∃ b : Batch, (r.write ans).1 = b.delivered ∧
    b.bytes = r.writeBuf ∧ (r.write ans).2.batches = r.batches ++ [b] ∧
    (r.write ans).2.writeBuf = [] := by
  refine ⟨(hintWriteBatch (ans r.calls) r.writeBuf r.chunkHasReset r.waitsLeft).1, rfl, ?_, rfl,
    rfl⟩
  unfold hintWriteBatch
  split_ifs <;> rfl

/-- A write makes a chunk of the hints in the buffer. -/
theorem Holds.write_bytes (h : Holds bigEndian most chunks pending r) :
    (r.write ans).2.batches.map Batch.bytes =
      (chunks ++ [pending]).map (serializeHints bigEndian) := by
  obtain ⟨b, -, hbytes, hbatches, -⟩ := write_batches ans r
  rw [hbatches, map_append, h.bytes, map_append, map_singleton, map_singleton,
    hbytes, h.pending]

section write
variable (h : Holds bigEndian most chunks pending r) (hne : pending ≠ [])
  (hlen : pending.length ≤ most)
include h hne hlen

theorem sizes_append : ∀ c ∈ chunks ++ [pending], c ≠ [] ∧ c.length ≤ most := by
  intro c hc
  rcases mem_append.mp hc with hc | hc
  · exact h.sizes c hc
  · rw [mem_singleton.mp hc]
    exact ⟨hne, hlen⟩

theorem Holds.write_ok (hok : (r.write ans).1 = true) :
    Holds bigEndian most (chunks ++ [pending]) [] (r.write ans).2 := by
  obtain ⟨b, hb, -, hbatches, hbuf⟩ := write_batches ans r
  refine ⟨h.write_bytes ans, sizes_append h hne hlen, ?_, hbuf⟩
  intro x hx
  rw [hbatches] at hx
  rcases mem_append.mp hx with hx | hx
  · exact h.delivered x hx
  · rw [mem_singleton.mp hx, ← hb, hok]

theorem Holds.write_failed (hok : (r.write ans).1 = false) :
    Stopped bigEndian most (chunks ++ [pending]) (r.write ans).2 := by
  obtain ⟨b, hb, -, hbatches, hbuf⟩ := write_batches ans r
  refine ⟨h.write_bytes ans, sizes_append h hne hlen, ?_,
    ⟨b, by simp [hbatches], by rw [← hb, hok]⟩, hbuf⟩
  rw [hbatches, dropLast_concat]
  exact h.delivered

end write

/-- The loop over the hints: the chunks and the rest are the hints for the session, or a write
failed and the chunks are the first of them. -/
theorem relayHints_holds (pid : UInt32) {es : List HintEntry}
    (h : Holds bigEndian most chunks pending r) (hlen : pending.length < most) :
    (∃ chunks' pending', Holds bigEndian most chunks' pending'
        (relayHints bigEndian ans (most * msgSize) pid es r) ∧ pending'.length < most ∧
        chunks'.flatten ++ pending' =
          chunks.flatten ++ pending ++ es.filter fun e => e.sourcePid ≠ pid) ∨
      ∃ chunks', Stopped bigEndian most chunks'
        (relayHints bigEndian ans (most * msgSize) pid es r) ∧
        chunks'.flatten <+: chunks.flatten ++ pending ++ es.filter fun e => e.sourcePid ≠ pid := by
  induction es generalizing chunks pending r with
  | nil => exact .inl ⟨chunks, pending, h, hlen, by simp⟩
  | cons e es ih =>
    rw [relayHints]
    split_ifs with hpid
    · -- the session's own hint
      have hfilter : (e :: es).filter (fun e => e.sourcePid ≠ pid) =
          es.filter fun e => e.sourcePid ≠ pid := by simp [hpid]
      rw [hfilter]
      exact ih h hlen
    · have hfilter : (e :: es).filter (fun e => e.sourcePid ≠ pid) =
          e :: es.filter fun e => e.sourcePid ≠ pid := by simp [Ne.symm hpid]
      have hput := h.put e
      have hbuf : (r.put bigEndian e).writeBuf.length = (pending.length + 1) * msgSize := by
        rw [hput.pending, length_serializeHints, length_append, length_singleton]
      have happ : ∀ l, chunks.flatten ++ pending ++ e :: l =
          (chunks ++ [pending ++ [e]]).flatten ++ [] ++ l := by simp
      have hle : (pending ++ [e]).length ≤ most := by
        rw [length_append, length_singleton]
        omega
      simp only []
      split_ifs with hlimit
      · cases hw : (r.put bigEndian e).write ans with
        | mk ok r' =>
          have hok : ((r.put bigEndian e).write ans).1 = ok := by rw [hw]
          have hr' : ((r.put bigEndian e).write ans).2 = r' := by rw [hw]
          rw [hfilter, happ]
          cases ok with
          | true =>
            rw [← hr']
            exact ih (hput.write_ok ans (by simp) hle hok) (by simp; omega)
          | false =>
            rw [← hr']
            refine .inr ⟨_, hput.write_failed ans (by simp) hle hok, ?_⟩
            rw [append_nil]
            exact prefix_append _ _
      · rw [hbuf] at hlimit
        have hlt : (pending ++ [e]).length < most := by
          rw [length_append]
          exact Nat.lt_of_mul_lt_mul_right (lt_of_not_ge hlimit)
        have := ih hput hlt
        rw [hfilter]
        simpa using this

section relayed
variable {pipeBuf : ℕ} {all : List HintEntry}

theorem sizes_pipeBuf (h : ∀ c ∈ chunks, c ≠ [] ∧ c.length ≤ pipeBuf / msgSize) :
    ∀ c ∈ chunks, c ≠ [] ∧ c.length * msgSize ≤ pipeBuf := by
  intro c hc
  refine ⟨(h c hc).1, (Nat.mul_le_mul_right _ (h c hc).2).trans ?_⟩
  exact Nat.div_mul_le_self _ _

theorem Holds.relayed (h : Holds bigEndian (pipeBuf / msgSize) chunks [] r)
    (hall : chunks.flatten = all) : Relayed bigEndian pipeBuf all r.batches :=
  ⟨chunks, h.bytes, sizes_pipeBuf h.sizes,
    fun b hb => h.delivered b ((dropLast_sublist _).subset hb), hall ▸ prefix_refl _,
    fun _ => hall⟩

theorem Stopped.relayed (h : Stopped bigEndian (pipeBuf / msgSize) chunks r)
    (hall : chunks.flatten <+: all) : Relayed bigEndian pipeBuf all r.batches := by
  refine ⟨chunks, h.bytes, sizes_pipeBuf h.sizes, h.delivered, hall, fun hdel => ?_⟩
  obtain ⟨b, hb, hlost⟩ := h.lost
  rw [hdel b hb] at hlost
  cases hlost

/-- One session is written the hints of the others. -/
theorem relayChild_relayed (hp : msgSize ≤ pipeBuf) (pid : UInt32) (sorted : List HintEntry)
    (waitsLeft : ℕ) (resetLost : Bool) (calls : ℕ) :
    Relayed bigEndian pipeBuf (sorted.filter fun e => e.sourcePid ≠ pid)
      (relayChild bigEndian ans (pipeBuf / msgSize * msgSize) pid sorted
        ⟨[], false, waitsLeft, resetLost, calls, []⟩).batches := by
  have hmost : 0 < pipeBuf / msgSize := Nat.div_pos hp (by decide)
  have hstart : Holds bigEndian (pipeBuf / msgSize) [] []
      ⟨[], false, waitsLeft, resetLost, calls, []⟩ := ⟨rfl, by simp, by simp, rfl⟩
  rw [relayChild]
  rcases relayHints_holds ans pid hstart hmost with
    ⟨chunks, pending, h, hlen, hall⟩ | ⟨chunks, h, hall⟩
  · rw [flatten_nil, nil_append, nil_append] at hall
    by_cases hnil : pending = []
    · subst hnil
      rw [append_nil] at hall
      rw [if_neg (by rw [h.pending]; simp [serializeHints])]
      exact h.relayed hall
    · have hflat : (chunks ++ [pending]).flatten = sorted.filter fun e => e.sourcePid ≠ pid := by
        rw [flatten_append, flatten_singleton, hall]
      have hpos : 0 < pending.length := length_pos_iff.mpr hnil
      rw [if_pos (by rw [h.pending, length_serializeHints]; exact Nat.mul_pos hpos (by decide))]
      cases hok : ((relayHints bigEndian ans (pipeBuf / msgSize * msgSize) pid sorted
          ⟨[], false, waitsLeft, resetLost, calls, []⟩).write ans).1 with
      | true => exact (h.write_ok ans hnil hlen.le hok).relayed hflat
      | false =>
        exact (h.write_failed ans hnil hlen.le hok).relayed
          (hflat ▸ prefix_refl _)
  · rw [if_neg (by rw [h.empty]; simp)]
    exact h.relayed hall

end relayed

/-! ### What a session receives -/

omit ans in
theorem flatten_map_serializeHints (chunks : List (List HintEntry)) :
    (chunks.map (serializeHints bigEndian)).flatten = serializeHints bigEndian chunks.flatten := by
  induction chunks with
  | nil => rfl
  | cons c cs ih =>
    rw [map_cons, flatten_cons, ih, flatten_cons, serializeHints_append]

theorem received_of_delivered {batches : List Batch} (h : ∀ b ∈ batches, b.delivered = true) :
    received batches = (batches.map Batch.bytes).flatten := by
  rw [received, flatMap_def]
  congr 1
  exact map_congr_left fun b hb => Batch.received_of_delivered (h b hb)

section
variable {pipeBuf : ℕ} {all : List HintEntry} {batches : List Batch}

section
variable (h : Relayed bigEndian pipeBuf all batches)
include h

/-- The chunks, taken apart at the last one. -/
theorem Relayed.cases : batches = [] ∨ ∃ init b front c, batches = init ++ [b] ∧
      received batches = serializeHints bigEndian front ++ b.received ∧
      b.bytes = serializeHints bigEndian c ∧ front ++ c <+: all := by
  obtain ⟨chunks, hbytes, -, hdel, hpre, -⟩ := h
  rcases eq_nil_or_concat' batches with rfl | ⟨init, b, rfl⟩
  · exact .inl rfl
  · rw [dropLast_concat] at hdel
    rcases eq_nil_or_concat' chunks with rfl | ⟨cs, c, rfl⟩
    · simp at hbytes
    · rw [map_append, map_append] at hbytes
      obtain ⟨hinit, hb⟩ := append_inj' hbytes rfl
      rw [flatten_append, flatten_singleton] at hpre
      refine .inr ⟨init, b, cs.flatten, c, rfl, ?_, by simpa using hb, hpre⟩
      rw [received, flatMap_append, ← received, received_of_delivered hdel, hinit,
        flatten_map_serializeHints, flatMap_singleton]

theorem Relayed.received_first : received batches <+: serializeHints bigEndian all := by
  rcases h.cases with rfl | ⟨init, b, front, c, rfl, hrec, hb, hpre⟩
  · exact nil_prefix
  · obtain ⟨rest, rfl⟩ := hpre
    have hlast : b.received <+: serializeHints bigEndian c := by
      rw [b.received_eq, hb]
      exact take_prefix _ _
    rw [hrec, serializeHints_append, serializeHints_append, append_assoc]
    exact (prefix_append_right_inj _).mpr (hlast.trans (prefix_append _ _))

/-- With writes that take all or nothing, whole messages are received. -/
theorem Relayed.received_hints
    (hatomic : ∀ b ∈ batches, b.last.count = 0 ∨ b.last.count = b.bytes.length) :
    ∃ hints, hints <+: all ∧ received batches = serializeHints bigEndian hints := by
  rcases h.cases with rfl | ⟨init, b, front, c, rfl, hrec, hb, hpre⟩
  · exact ⟨[], nil_prefix, rfl⟩
  · rcases hatomic b (by simp) with h0 | hlen
    · refine ⟨front, (prefix_append _ _).trans hpre, ?_⟩
      rw [hrec, b.received_eq, h0, take_zero, append_nil]
    · refine ⟨front ++ c, hpre, ?_⟩
      rw [hrec, b.received_eq, hlen, take_length, hb, serializeHints_append]

end

end

end

/-- The loop over the sessions: each one with a pipe in turn. -/
theorem relayChildren_relayed {pipeBuf : ℕ} (hp : msgSize ≤ pipeBuf) (sorted : List HintEntry)
    (cs : List Child) (waitsLeft : ℕ) (resetLost : Bool) (calls : ℕ) :
    (relayChildren bigEndian ans (pipeBuf / msgSize * msgSize) sorted cs waitsLeft resetLost
        calls).1.map Prod.fst = cs.filter (fun c => 0 ≤ c.hintFd) ∧
      ∀ x ∈ (relayChildren bigEndian ans (pipeBuf / msgSize * msgSize) sorted cs waitsLeft resetLost
        calls).1, Relayed bigEndian pipeBuf (sorted.filter fun e => e.sourcePid ≠ x.1.pid) x.2 := by
  induction cs generalizing waitsLeft resetLost calls with
  | nil => simp [relayChildren]
  | cons c cs ih =>
    rw [relayChildren]
    split_ifs with hfd
    · have hneg : ¬ 0 ≤ c.hintFd := by omega
      simpa [hneg] using ih waitsLeft resetLost calls
    · have hpos : 0 ≤ c.hintFd := by omega
      let r := relayChild bigEndian ans (pipeBuf / msgSize * msgSize) c.pid sorted
        ⟨[], false, waitsLeft, resetLost, calls, []⟩
      obtain ⟨hfst, hall⟩ := ih r.waitsLeft r.resetLost r.calls
      refine ⟨?_, forall_mem_cons.2 ⟨?_, hall⟩⟩
      · simp [hpos]
        exact hfst
      · exact relayChild_relayed ans hp c.pid sorted waitsLeft resetLost calls

/-- A flush offers every session with a hint pipe the hints that it is due, and what a session
receives are the first of them. -/
theorem hintFlushPending_relays {pipeBuf : ℕ} (hp : msgSize ≤ pipeBuf) (now : ℤ)
    (children : List (List Child)) (m : Master) :
    (hintFlushPending bigEndian ans pipeBuf now children m).2.1.map Prod.fst =
        (if m.hintBuf.entries = [] then []
          else children.flatten.filter fun c => 0 ≤ c.hintFd) ∧
      ∀ x ∈ (hintFlushPending bigEndian ans pipeBuf now children m).2.1,
        Relayed bigEndian pipeBuf (due m.hintBuf.entries x.1.pid) x.2 ∧
        received x.2 <+: serializeHints bigEndian (due m.hintBuf.entries x.1.pid) ∧
        ((∀ b ∈ x.2, b.last.count = 0 ∨ b.last.count = b.bytes.length) →
          ∃ hints, hints <+: due m.hintBuf.entries x.1.pid ∧
            received x.2 = serializeHints bigEndian hints) := by
  by_cases hnil : m.hintBuf.entries = []
  · simp [hintFlushPending, hnil]
  · have hout : (hintFlushPending bigEndian ans pipeBuf now children m).2.1 =
        (relayChildren bigEndian ans (pipeBuf / msgSize * msgSize) (sortHints m.hintBuf.entries)
          children.flatten (if now ≠ m.waitWindow then hintResetWaitBudget else m.waitsLeft) false
          0).1 := by
      rw [hintFlushPending]
      simp only [if_neg hnil]
    rw [hout, if_neg hnil]
    obtain ⟨hfst, hall⟩ := relayChildren_relayed bigEndian ans hp (sortHints m.hintBuf.entries)
      children.flatten (if now ≠ m.waitWindow then hintResetWaitBudget else m.waitsLeft) false 0
    refine ⟨hfst, fun x hx => ?_⟩
    have hx' := hall x hx
    rw [filter_sortHints] at hx'
    exact ⟨hx', hx'.received_first, hx'.received_hints⟩

end

/-- A refresh by process 7 and a later reset by process 8. -/
def refreshThenReset : Master :=
  ⟨⟨[⟨1, 20, .refresh, 7⟩, ⟨1, 99, .volumeReset, 8⟩], by decide⟩, 0, 0, []⟩

/-- A third process is offered both, the reset first. -/
theorem hintFlushPending_relays_reset :
    due refreshThenReset.hintBuf.entries 9 = [⟨1, 99, .volumeReset, 8⟩, ⟨1, 20, .refresh, 7⟩] ∧
      ∀ x ∈ (hintFlushPending false (fun _ => ⟨.again, true, .wrote 44⟩) 4096 5 [[⟨9, 3⟩]]
          refreshThenReset).2.1,
        Relayed false 4096 (due refreshThenReset.hintBuf.entries x.1.pid) x.2 :=
  ⟨by decide, fun x hx => ((hintFlushPending_relays false (fun _ => ⟨.again, true, .wrote 44⟩)
    (by decide) 5 [[⟨9, 3⟩]] refreshThenReset).2 x hx).1⟩

end Netatalk.Hint
