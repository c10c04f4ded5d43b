import Netatalk.DeferredQueue

/-! # What the queue operations do to the unfinished jobs

`Queue.Ringed` ties head, tail and count together.  `Retires d d'` collects what every
operation that only finishes jobs has in common: killing slots, compacting either end, ending
a scan.  `Queue.WF` is the invariant of the queue between two calls; it is kept by enqueuing
(`Queue.WF.enqueue`), by everything that retires jobs (`Queue.WF.retires`), and by the start
of a scan. -/

namespace Netatalk.Deferred

open List
open Queue (setSlot)

/-- Head, tail and count describe one ring. -/
structure Queue.Ringed (d : Queue) : Prop where
  head_lt : d.head < maxDeferredCleanups
  count_le : d.count ≤ maxDeferredCleanups
  tail_eq : d.tail = (d.head + d.count) % maxDeferredCleanups

theorem Queue.Ringed.congr {d d' : Queue} (h : d.Ringed) (head : d'.head = d.head)
    (tail : d'.tail = d.tail) (count : d'.count = d.count) : d'.Ringed := by
  refine ⟨?_, ?_, ?_⟩
  · rw [head]
    exact h.head_lt
  · rw [count]
    exact h.count_le
  · rw [head, tail, count]
    exact h.tail_eq

theorem maxDeferredCleanups_pos : 0 < maxDeferredCleanups := by
  rw [maxDeferredCleanups]
  decide

variable {a i j n : ℕ}

section Ring

variable {d d' : Queue}

theorem Queue.mem_live :
    i ∈ d.live ↔ i ∈ d.slots ∧ (d.queue i).parentPath.isSome = true := mem_filter

theorem Queue.Ringed.last_eq (h : d.Ringed) (hn : d.count = n + 1) :
    d.last = (d.head + n) % maxDeferredCleanups := by
  rw [Queue.last, h.tail_eq, hn]
  exact tail_sub_one_mod maxDeferredCleanups_pos

theorem Queue.Ringed.slots_eq (h : d.Ringed) (hn : d.count = n + 1) :
    d.slots = ringSlots maxDeferredCleanups d.head n ++ [d.last] := by
  rw [Queue.slots, hn, ringSlots_push, h.last_eq hn]

/-- Two queues with the same slots, the same paths in them, give the same live slots. -/
theorem live_eq_filter {l : List ℕ} (hl : d'.slots = l)
    (hq : ∀ i, (d'.queue i).parentPath = (d.queue i).parentPath) :
    d'.live = l.filter fun i => (d.queue i).parentPath.isSome := by
  simp only [Queue.live, hl, hq]

end Ring

/-- The variables of the scans, not those of the ring, have the same values. -/
structure SameScan (d d' : Queue) : Prop where
  seq : d'.seq = d.seq
  started : d'.scanStartedSeq = d.scanStartedSeq
  active : d'.active = d.active
  cover : d'.cover = d.cover
  batchActive : d'.batchActive = d.batchActive
  batchSeq : d'.batchSeq = d.batchSeq
  batchDepth : d'.batchDepth = d.batchDepth
  batchChainIdx : d'.batchChainIdx = d.batchChainIdx
  batchIdx : d'.batchIdx = d.batchIdx

theorem SameScan.refl (d : Queue) : SameScan d d := ⟨rfl, rfl, rfl, rfl, rfl, rfl, rfl, rfl, rfl⟩

theorem SameScan.trans {d d' d'' : Queue} (h : SameScan d d') (h' : SameScan d' d'') :
    SameScan d d'' where
  seq := h'.seq.trans h.seq
  started := h'.started.trans h.started
  active := h'.active.trans h.active
  cover := h'.cover.trans h.cover
  batchActive := h'.batchActive.trans h.batchActive
  batchSeq := h'.batchSeq.trans h.batchSeq
  batchDepth := h'.batchDepth.trans h.batchDepth
  batchChainIdx := h'.batchChainIdx.trans h.batchChainIdx
  batchIdx := h'.batchIdx.trans h.batchIdx

/-! ### Compaction -/

/-- `d'` is `d` after dead slots have left the ring. -/
structure Compacts (d d' : Queue) : Prop where
  ringed : d'.Ringed
  live : d'.live = d.live
  queue : ∀ i ∈ d.live, d'.queue i = d.queue i
  depth : d.live = [] ∨ d'.depthMin = d.depthMin ∧ d'.depthMax = d.depthMax
  scan : SameScan d d'

section Compaction

variable {d d' d'' : Queue}

theorem Compacts.refl (h : d.Ringed) : Compacts d d :=
  ⟨h, rfl, fun _ _ => rfl, .inr ⟨rfl, rfl⟩, .refl d⟩

theorem Compacts.trans (h : Compacts d d') (h' : Compacts d' d'') : Compacts d d'' where
  ringed := h'.ringed
  live := h'.live.trans h.live
  queue := by
    intro i hi
    rw [h'.queue i (by rw [h.live]; exact hi), h.queue i hi]
  depth := by
    have h1 := h.depth
    have h2 := h'.depth
    rw [h.live] at h2
    obtain h1 | ⟨e1, e2⟩ := h1
    · exact .inl h1
    · rw [e1, e2] at h2
      exact h2
  scan := h.scan.trans h'.scan

theorem parentPath_setSlot_vVid (i : ℕ) (v : UInt16) (j : ℕ) :
    ((d.setSlot i { d.queue i with vVid := v }).queue j).parentPath = (d.queue j).parentPath := by
  simp only [setSlot]
  split_ifs with h
  · rw [h]
  · rfl

theorem ne_of_mem_live (hi : i ∈ d.live) (hj : (d.queue j).parentPath = none) : i ≠ j := by
  rintro rfl
  have := (Queue.mem_live.mp hi).2
  rw [hj] at this
  cases this

theorem compacts_popHead (h : d.Ringed) (hn : d.count = n + 1)
    (hdead : (d.queue d.head).parentPath = none) : Compacts d d.popHead where
  ringed := by
    refine ⟨Nat.mod_lt _ maxDeferredCleanups_pos, (Nat.sub_le _ _).trans h.count_le, ?_⟩
    show d.tail = ((d.head + 1) % maxDeferredCleanups + (d.count - 1)) % maxDeferredCleanups
    rw [h.tail_eq, Nat.mod_add_mod]
    congr 1
    omega
  live := by
    rw [@live_eq_filter d d.popHead _ rfl (parentPath_setSlot_vVid d.head 0)]
    show (ringSlots _ ((d.head + 1) % _) (d.count - 1)).filter _ = d.live
    rw [Queue.live, Queue.slots, hn, ringSlots_popHead, Nat.mod_eq_of_lt h.head_lt,
      filter_cons_of_neg (by simp [hdead]), Nat.add_sub_cancel]
  queue := fun i hi => if_neg (ne_of_mem_live hi hdead)
  depth := .inr ⟨rfl, rfl⟩
  scan := ⟨rfl, rfl, rfl, rfl, rfl, rfl, rfl, rfl, rfl⟩

theorem compacts_popTail (h : d.Ringed) (hn : d.count = n + 1)
    (hdead : (d.queue d.last).parentPath = none) : Compacts d d.popTail where
  ringed := by
    refine ⟨h.head_lt, (Nat.sub_le _ _).trans h.count_le, ?_⟩
    show d.last = (d.head + (d.count - 1)) % maxDeferredCleanups
    rw [h.last_eq hn, hn, Nat.add_sub_cancel]
  live := by
    rw [@live_eq_filter d d.popTail _ rfl (parentPath_setSlot_vVid d.last 0)]
    show (ringSlots _ d.head (d.count - 1)).filter _ = d.live
    rw [Queue.live, h.slots_eq hn, filter_append, hn,
      filter_cons_of_neg (by simp [hdead]), filter_nil, append_nil,
      Nat.add_sub_cancel]
  queue := fun i hi => if_neg (ne_of_mem_live hi hdead)
  depth := .inr ⟨rfl, rfl⟩
  scan := ⟨rfl, rfl, rfl, rfl, rfl, rfl, rfl, rfl, rfl⟩

theorem compacts_compactHeadLoop : ∀ (n : ℕ) {d : Queue}, d.Ringed → d.count = n →
    Compacts d (compactHeadLoop n d) ∧ (compactHeadLoop n d).tail = d.tail ∧
      (compactHeadLoop n d).count ≤ d.count
  | 0, _, h, _ => ⟨.refl h, rfl, le_rfl⟩
  | n + 1, d, h, hn => by
      simp only [compactHeadLoop]
      split_ifs with hdead
      · have hpop := compacts_popHead h hn hdead
        have hcount : d.popHead.count = n := by
          rw [Queue.popHead, hn, Nat.add_sub_cancel]
        obtain ⟨hc, htail, hle⟩ := compacts_compactHeadLoop n hpop.ringed hcount
        exact ⟨hpop.trans hc, htail, hle.trans (Nat.sub_le _ _)⟩
      · exact ⟨.refl h, rfl, le_rfl⟩

/-- The tail loop stops at a live slot or at an empty ring. -/
theorem compacts_compactTailLoop : ∀ (n : ℕ) {d : Queue}, d.Ringed → d.count = n →
    Compacts d (compactTailLoop n d) ∧
      ((compactTailLoop n d).count = 0 ∨ (compactTailLoop n d).last ∈ d.live)
  | 0, _, h, hn => ⟨.refl h, .inl hn⟩
  | n + 1, d, h, hn => by
      simp only [compactTailLoop]
      split_ifs with hdead
      · refine ⟨.refl h, .inr ?_⟩
        rw [Queue.mem_live, h.slots_eq hn]
        exact ⟨List.mem_append_right _ (List.mem_singleton_self _),
          Option.isSome_iff_ne_none.mpr hdead⟩
      · have hpop := compacts_popTail h hn (not_not.mp hdead)
        have hcount : d.popTail.count = n := by
          rw [Queue.popTail, hn, Nat.add_sub_cancel]
        obtain ⟨hc, hend⟩ := compacts_compactTailLoop n hpop.ringed hcount
        rw [hpop.live] at hend
        exact ⟨hpop.trans hc, hend⟩

theorem compacts_deferredCompactTail (h : d.Ringed) : Compacts d (deferredCompactTail d) ∧
      ((deferredCompactTail d).count = 0 ∨ (deferredCompactTail d).last ∈ d.live) := by
  obtain ⟨hc, hend⟩ := compacts_compactTailLoop d.count h rfl
  simp only [deferredCompactTail]
  split_ifs with h0
  · have hnil : d.live = [] := by
      rw [← hc.live, Queue.live, Queue.slots, h0]
      rfl
    refine ⟨?_, .inl h0⟩
    exact ⟨hc.ringed.congr rfl rfl rfl, hc.live, hc.queue,
      .inl hnil, hc.scan.trans ⟨rfl, rfl, rfl, rfl, rfl, rfl, rfl, rfl, rfl⟩⟩
  · exact ⟨hc, hend⟩

/-- Compacting both ends; a ring with slots left then ends in a live one. -/
theorem compacts_both (h : d.Ringed) : Compacts d (deferredCompactHead (deferredCompactTail d)) ∧
      ((deferredCompactHead (deferredCompactTail d)).count ≠ 0 →
        (deferredCompactHead (deferredCompactTail d)).last ∈ d.live) := by
  obtain ⟨hc, hend⟩ := compacts_deferredCompactTail h
  obtain ⟨hhead, htail, hle⟩ := compacts_compactHeadLoop _ hc.ringed rfl
  refine ⟨hc.trans hhead, fun h0 => ?_⟩
  have hlast : (deferredCompactHead (deferredCompactTail d)).last =
      (deferredCompactTail d).last := by
    rw [Queue.last, deferredCompactHead, htail, Queue.last]
  rw [hlast]
  apply hend.resolve_left
  intro h1
  exact h0 (Nat.le_zero.mp (hle.trans h1.le))

end Compaction

/-! ### Killing slots and enqueuing -/

/-- `d'` is `d` with some slots killed. -/
structure Kills (d d' : Queue) : Prop where
  slot : ∀ i, d'.queue i = d.queue i ∨ (d'.queue i).parentPath = none
  head : d'.head = d.head
  tail : d'.tail = d.tail
  count : d'.count = d.count
  depthMin : d'.depthMin = d.depthMin
  depthMax : d'.depthMax = d.depthMax
  scan : SameScan d d'

section Kills

variable {d d' d'' : Queue}

theorem Kills.refl : Kills d d := ⟨fun _ => Or.inl rfl, rfl, rfl, rfl, rfl, rfl, SameScan.refl d⟩

theorem Kills.trans (h : Kills d d') (h' : Kills d' d'') : Kills d d'' where
  slot := by
    intro i
    obtain e' | e' := h'.slot i
    · rw [e']
      exact h.slot i
    · exact .inr e'
  head := h'.head.trans h.head
  tail := h'.tail.trans h.tail
  count := h'.count.trans h.count
  depthMin := h'.depthMin.trans h.depthMin
  depthMax := h'.depthMax.trans h.depthMax
  scan := h.scan.trans h'.scan

theorem kills_deferredJobKill (i : ℕ) : Kills d (deferredJobKill d i) where
  slot := by
    intro j
    by_cases h : j = i
    · right
      simp only [deferredJobKill, setSlot, if_pos h]
    · exact .inl (if_neg h)
  head := rfl
  tail := rfl
  count := rfl
  depthMin := rfl
  depthMax := rfl
  scan := ⟨rfl, rfl, rfl, rfl, rfl, rfl, rfl, rfl, rfl⟩

theorem parentPath_deferredJobKill (i : ℕ) : ((deferredJobKill d i).queue i).parentPath = none := by
  simp only [deferredJobKill, setSlot, if_pos]

theorem queue_deferredJobKill_of_ne (h : j ≠ i) :
    (deferredJobKill d i).queue j = d.queue j := if_neg h

theorem Kills.slots (h : Kills d d') : d'.slots = d.slots := by
  rw [Queue.slots, h.head, h.count, Queue.slots]

theorem Kills.mem_live (h : Kills d d') (hi : i ∈ d'.live) :
    i ∈ d.live ∧ d'.queue i = d.queue i := by
  obtain ⟨hs, hp⟩ := Queue.mem_live.mp hi
  obtain e | e := h.slot i
  · rw [h.slots] at hs
    rw [e] at hp
    exact ⟨Queue.mem_live.mpr ⟨hs, hp⟩, e⟩
  · rw [e] at hp
    cases hp

theorem Kills.live_of_queue_eq (h : Kills d d') (hi : i ∈ d.live)
    (e : d'.queue i = d.queue i) : i ∈ d'.live := by
  obtain ⟨hs, hp⟩ := Queue.mem_live.mp hi
  rw [Queue.mem_live, h.slots, e]
  exact ⟨hs, hp⟩

theorem Kills.ringed (h : Kills d d') (hd : d.Ringed) : d'.Ringed :=
  hd.congr h.head h.tail h.count

/-- A fold of functions that only kill slots only kills slots. -/
theorem kills_foldl {β : Type} {f : Queue → β → Queue} (hf : ∀ d b, Kills d (f d b)) :
    ∀ (l : List β) (d : Queue), Kills d (l.foldl f d)
  | [], _ => .refl
  | b :: l, d => (hf d b).trans (kills_foldl hf l (f d b))

theorem kills_batchRetire (d : Queue) (i : ℕ) : Kills d (batchRetire d i) := by
  rw [batchRetire]
  split_ifs
  · exact kills_deferredJobKill i
  · exact .refl

end Kills

section Enqueue

variable {d : Queue} {vid : UInt16} {path : List UInt8}

theorem queue_deferredEnqueue_tail : (deferredEnqueue d vid path).queue d.tail =
    { parentPath := some path, vVid := vid, chainIdx := 0, seq := d.seq,
      depth := path.count slash } := if_pos rfl

section
variable (h : d.Ringed) (hc : d.count < maxDeferredCleanups)
include h hc

theorem tail_notMem_slots : d.tail ∉ d.slots := by
  rw [h.tail_eq]
  exact tail_notMem_ringSlots hc

theorem queue_deferredEnqueue
    (hi : i ∈ d.slots) : (deferredEnqueue d vid path).queue i = d.queue i := by
  refine if_neg ?_
  rintro rfl
  exact tail_notMem_slots h hc hi

theorem ringed_deferredEnqueue : (deferredEnqueue d vid path).Ringed where
  head_lt := h.head_lt
  count_le := hc
  tail_eq := by
    show (d.tail + 1) % maxDeferredCleanups = (d.head + (d.count + 1)) % maxDeferredCleanups
    rw [h.tail_eq, Nat.mod_add_mod, add_assoc]

theorem live_deferredEnqueue : (deferredEnqueue d vid path).live = d.live ++ [d.tail] := by
  have hs : (deferredEnqueue d vid path).slots = d.slots ++ [d.tail] := by
    show ringSlots _ d.head (d.count + 1) = d.slots ++ [d.tail]
    rw [ringSlots_push, h.tail_eq, Queue.slots]
  rw [Queue.live, hs, filter_append, filter_cons_of_pos]
  · congr 1
    apply filter_congr
    intro i hi
    rw [queue_deferredEnqueue h hc hi]
  · rw [queue_deferredEnqueue_tail]
    rfl

end

end Enqueue

/-! ### The invariant of the queue -/

/-- The queue between two calls. -/
structure Queue.WF (d : Queue) : Prop where
  ringed : d.Ringed
  seq_lt : ∀ i ∈ d.live, (d.queue i).seq < d.seq
  seq_inj : ∀ i ∈ d.live, ∀ j ∈ d.live, (d.queue i).seq = (d.queue j).seq → i = j
  fresh : ∀ i ∈ d.live, d.active ≠ some i → (d.queue i).chainIdx = 0
  depth : ∀ i ∈ d.live, (d.queue i).depth = (d.queue i).path.count slash
  watermarks : ∀ i ∈ d.live, d.depthMin ≤ (d.queue i).depth ∧ (d.queue i).depth ≤ d.depthMax
  active : ∀ a, d.active = some a →
    a ∈ d.live ∧ (d.queue a).seq < d.scanStartedSeq ∧ d.batchActive = false
  started : d.scanStartedSeq ≤ d.seq
  batch : d.batchActive = true → ∀ i ∈ d.batchIdx,
    i ∈ d.live ∧ (d.queue i).path.count slash = d.batchDepth
  sorted : d.batchActive = true →
    d.batchIdx.Pairwise fun a b => (deferredBatchCmp d a b).isLE = true
  cover : ∀ c, d.cover = some c → c.seq ≤ d.seq

/-- `d'` is `d` after jobs have been finished: the live slots of `d'` are live in `d` with the
same jobs, a scan in progress goes on or its job is gone, and a new memo is that of the scan
that was in progress. -/
structure Retires (d d' : Queue) : Prop where
  ringed : d'.Ringed
  live : ∀ i ∈ d'.live, i ∈ d.live ∧ d'.queue i = d.queue i
  depth : d'.live = [] ∨ d'.depthMin = d.depthMin ∧ d'.depthMax = d.depthMax
  seq : d'.seq = d.seq
  started : d'.scanStartedSeq = d.scanStartedSeq
  active : ∀ a, d.active = some a → d'.active = some a ∧ a ∈ d'.live ∨ a ∉ d'.live
  active_of : ∀ a, d'.active = some a → d.active = some a ∧ a ∈ d'.live
  batch : d'.batchActive = true → d.batchActive = true ∧ d'.batchIdx = d.batchIdx ∧
    d'.batchDepth = d.batchDepth ∧ d'.batchChainIdx = d.batchChainIdx ∧
    ∀ i ∈ d.batchIdx, i ∈ d'.live
  cover : ∀ c, d'.cover = some c → d.cover = some c ∨ c.seq = d.scanStartedSeq

section WF

variable {d d' d'' : Queue}

theorem Queue.WF.empty : Queue.empty.WF where
  ringed := ⟨maxDeferredCleanups_pos, Nat.zero_le _, (Nat.zero_mod _).symm⟩
  seq_lt := by
    rintro i ⟨⟩
  seq_inj := by
    rintro i ⟨⟩
  fresh := by
    rintro i ⟨⟩
  depth := by
    rintro i ⟨⟩
  watermarks := by
    rintro i ⟨⟩
  active := by
    rintro a ⟨⟩
  started := le_rfl
  batch := by
    rintro ⟨⟩
  sorted := by
    rintro ⟨⟩
  cover := by
    rintro c ⟨⟩

theorem Queue.WF.retires (h : d.WF) (hr : Retires d d') : d'.WF where
  ringed := hr.ringed
  seq_lt := by
    intro i hi
    obtain ⟨hl, e⟩ := hr.live i hi
    rw [e, hr.seq]
    exact h.seq_lt i hl
  seq_inj := by
    intro i hi j hj hij
    obtain ⟨hil, ei⟩ := hr.live i hi
    obtain ⟨hjl, ej⟩ := hr.live j hj
    rw [ei, ej] at hij
    exact h.seq_inj i hil j hjl hij
  fresh := by
    intro i hi hne
    obtain ⟨hl, e⟩ := hr.live i hi
    rw [e]
    apply h.fresh i hl
    intro ha
    obtain ⟨ha', _⟩ | ha' := hr.active i ha
    · exact hne ha'
    · exact ha' hi
  depth := by
    intro i hi
    obtain ⟨hl, e⟩ := hr.live i hi
    rw [e]
    exact h.depth i hl
  watermarks := by
    intro i hi
    obtain ⟨hl, e⟩ := hr.live i hi
    obtain hnil | ⟨e1, e2⟩ := hr.depth
    · rw [hnil] at hi
      cases hi
    · rw [e, e1, e2]
      exact h.watermarks i hl
  active := by
    intro a ha
    obtain ⟨ha', hl⟩ := hr.active_of a ha
    obtain ⟨_, hs, hb⟩ := h.active a ha'
    rw [(hr.live a hl).2, hr.started]
    refine ⟨hl, hs, ?_⟩
    rw [← Bool.not_eq_true]
    intro hb'
    rw [(hr.batch hb').1] at hb
    cases hb
  started := by
    rw [hr.started, hr.seq]
    exact h.started
  batch := by
    intro hb i hi
    obtain ⟨hb', e1, e2, _, hl⟩ := hr.batch hb
    rw [e1] at hi
    rw [(hr.live i (hl i hi)).2, e2]
    exact ⟨hl i hi, (h.batch hb' i hi).2⟩
  sorted := by
    intro hb
    obtain ⟨hb', e1, _, _, hl⟩ := hr.batch hb
    rw [e1]
    refine (h.sorted hb').imp_of_mem fun {a b} ha hb hab => ?_
    rw [deferredBatchCmp, (hr.live a (hl a ha)).2, (hr.live b (hl b hb)).2]
    exact hab
  cover := by
    intro c hc
    rw [hr.seq]
    obtain hc' | e := hr.cover c hc
    · exact h.cover c hc'
    · rw [e]
      exact h.started

theorem Retires.compacts (hr : Retires d d') (hc : Compacts d' d'') : Retires d d'' where
  ringed := hc.ringed
  live := by
    intro i hi
    rw [hc.live] at hi
    rw [hc.queue i hi]
    exact hr.live i hi
  depth := by
    rw [hc.live]
    obtain hnil | ⟨e1, e2⟩ := hc.depth
    · exact .inl hnil
    · rw [e1, e2]
      exact hr.depth
  seq := hc.scan.seq.trans hr.seq
  started := hc.scan.started.trans hr.started
  active := by
    rw [hc.scan.active, hc.live]
    exact hr.active
  active_of := by
    rw [hc.scan.active, hc.live]
    exact hr.active_of
  batch := by
    rw [hc.scan.batchActive, hc.scan.batchIdx, hc.scan.batchDepth, hc.scan.batchChainIdx, hc.live]
    exact hr.batch
  cover := by
    rw [hc.scan.cover]
    exact hr.cover

theorem Queue.WF.retires_self (h : d.WF) : Retires d d where
  ringed := h.ringed
  live := fun _ hi => ⟨hi, rfl⟩
  depth := .inr ⟨rfl, rfl⟩
  seq := rfl
  started := rfl
  active := fun a ha => .inl ⟨ha, (h.active a ha).1⟩
  active_of := fun a ha => ⟨ha, (h.active a ha).1⟩
  batch := fun hb => ⟨hb, rfl, rfl, rfl, fun i hi => (h.batch hb i hi).1⟩
  cover := fun _ hc => .inl hc

section
variable (h : d.WF) (hc : d.count < maxDeferredCleanups) (vid : UInt16) (path : List UInt8)
include h hc vid path

/-- A job that is queued already stays where it is. -/
theorem Queue.WF.live_enqueue (hi : i ∈ d.live) : i ∈ (deferredEnqueue d vid path).live ∧
      (deferredEnqueue d vid path).queue i = d.queue i := by
  rw [live_deferredEnqueue h.ringed hc]
  exact ⟨mem_append_left _ hi,
    queue_deferredEnqueue h.ringed hc (Queue.mem_live.mp hi).1⟩

/-- A job after an insertion was queued before or is the new one. -/
theorem Queue.WF.of_mem_live_enqueue (hi : i ∈ (deferredEnqueue d vid path).live) :
    i ∈ d.live ∧ (deferredEnqueue d vid path).queue i = d.queue i ∨ i = d.tail := by
  rw [live_deferredEnqueue h.ringed hc, mem_append, mem_singleton] at hi
  exact hi.imp_left fun hl => ⟨hl, (h.live_enqueue hc vid path hl).2⟩

/-- The watermarks of the depths hold for the new job as well. -/
theorem Queue.WF.watermarks_enqueue (hi : i ∈ (deferredEnqueue d vid path).live) :
    (deferredEnqueue d vid path).depthMin ≤ ((deferredEnqueue d vid path).queue i).depth ∧
      ((deferredEnqueue d vid path).queue i).depth ≤ (deferredEnqueue d vid path).depthMax := by
  show (if d.count = 0 then path.count slash else min (path.count slash) d.depthMin) ≤ _ ∧
    _ ≤ (if d.count = 0 then path.count slash else max (path.count slash) d.depthMax)
  obtain ⟨hl, e⟩ | rfl := h.of_mem_live_enqueue hc vid path hi
  · have hne : d.count ≠ 0 := by
      intro h0
      rw [Queue.live, Queue.slots, h0] at hl
      cases hl
    obtain ⟨h1, h2⟩ := h.watermarks i hl
    rw [if_neg hne, if_neg hne, e]
    exact ⟨(min_le_right _ _).trans h1, h2.trans (le_max_right _ _)⟩
  · rw [queue_deferredEnqueue_tail]
    split_ifs
    · exact ⟨le_rfl, le_rfl⟩
    · exact ⟨min_le_left _ _, le_max_left _ _⟩

theorem Queue.WF.enqueue : (deferredEnqueue d vid path).WF where
  ringed := ringed_deferredEnqueue h.ringed hc
  seq_lt := by
    intro i hi
    obtain ⟨hl, e⟩ | rfl := h.of_mem_live_enqueue hc vid path hi
    · rw [e]
      exact Nat.lt_succ_of_lt (h.seq_lt i hl)
    · rw [queue_deferredEnqueue_tail]
      exact Nat.lt_succ_self _
  seq_inj := by
    intro i hi j hj hij
    obtain ⟨hil, ei⟩ | rfl := h.of_mem_live_enqueue hc vid path hi
    · rw [ei] at hij
      obtain ⟨hjl, ej⟩ | rfl := h.of_mem_live_enqueue hc vid path hj
      · rw [ej] at hij
        exact h.seq_inj i hil j hjl hij
      · rw [queue_deferredEnqueue_tail] at hij
        exact absurd hij (h.seq_lt i hil).ne
    · rw [queue_deferredEnqueue_tail] at hij
      obtain ⟨hjl, ej⟩ | rfl := h.of_mem_live_enqueue hc vid path hj
      · rw [ej] at hij
        exact absurd hij.symm (h.seq_lt j hjl).ne
      · rfl
  fresh := by
    intro i hi hne
    obtain ⟨hl, e⟩ | rfl := h.of_mem_live_enqueue hc vid path hi
    · rw [e]
      exact h.fresh i hl hne
    · rw [queue_deferredEnqueue_tail]
  depth := by
    intro i hi
    obtain ⟨hl, e⟩ | rfl := h.of_mem_live_enqueue hc vid path hi
    · rw [e]
      exact h.depth i hl
    · rw [queue_deferredEnqueue_tail]
      rfl
  watermarks := fun i hi => h.watermarks_enqueue hc vid path hi
  active := by
    intro a ha
    obtain ⟨hl, hs, hb⟩ := h.active a ha
    obtain ⟨hl', e⟩ := h.live_enqueue hc vid path hl
    rw [e]
    exact ⟨hl', hs, hb⟩
  started := Nat.le_succ_of_le h.started
  batch := by
    intro hb i hi
    obtain ⟨hl, hd⟩ := h.batch hb i hi
    obtain ⟨hl', e⟩ := h.live_enqueue hc vid path hl
    rw [e]
    exact ⟨hl', hd⟩
  sorted := by
    intro hb
    refine (h.sorted hb).imp_of_mem fun {a b} ha hb' hab => ?_
    rw [deferredBatchCmp, (h.live_enqueue hc vid path (h.batch hb a ha).1).2,
      (h.live_enqueue hc vid path (h.batch hb b hb').1).2]
    exact hab
  cover := fun c hcov => Nat.le_succ_of_le (h.cover c hcov)

end

theorem Queue.WF.compacts (h : d.WF) (hc : Compacts d d') : d'.WF :=
  h.retires (h.retires_self.compacts hc)

end WF

/-! ### Ends and starts of scans -/

section Scans

variable {d : Queue}

theorem Queue.WF.retires_kill (h : d.WF) (ha : d.active = none) (hb : d.batchActive = false)
    (i : ℕ) : Retires d (deferredJobKill d i) where
  ringed := (kills_deferredJobKill i).ringed h.ringed
  live := fun _ hj => (kills_deferredJobKill i).mem_live hj
  depth := .inr ⟨rfl, rfl⟩
  seq := rfl
  started := rfl
  active := by
    intro a haa
    rw [ha] at haa
    cases haa
  active_of := by
    intro a haa
    rw [show d.active = some a from haa] at ha
    cases ha
  batch := by
    intro hb'
    rw [show d.batchActive = true from hb'] at hb
    cases hb
  cover := fun _ hc => .inl hc

theorem Queue.WF.activate (h : d.WF) (ha : d.active = none) (hb : d.batchActive = false)
    (hi : i ∈ d.live) : ({ d with active := some i, scanStartedSeq := d.seq } : Queue).WF := by
  refine { h with
    ringed := h.ringed.congr rfl rfl rfl, fresh := ?_, active := ?_, started := le_rfl }
  · intro j hj _
    apply h.fresh j hj
    exact ha.trans_ne (Option.some_ne_none _).symm
  · rintro a ⟨⟩
    exact ⟨hi, h.seq_lt i hi, hb⟩

theorem cover_retireActive (h : d.Ringed) (slot : ℕ) : (retireActive d slot).cover = d.cover := by
  have hr : ({ deferredJobKill d slot with active := none } : Queue).Ringed := h.congr rfl rfl rfl
  rw [retireActive, (compacts_both hr).1.scan.cover]
  rfl

theorem notMem_live_retireActive (h : d.Ringed) (slot : ℕ) : slot ∉ (retireActive d slot).live := by
  have hr : ({ deferredJobKill d slot with active := none } : Queue).Ringed := h.congr rfl rfl rfl
  rw [retireActive, (compacts_both hr).1.live]
  exact fun hl => ne_of_mem_live hl (parentPath_deferredJobKill slot) rfl

/-- The end of a single scan, with the memo that it leaves. -/
theorem Queue.WF.retires_retireActive (h : d.WF) (ha : d.active = some a) {cover : Option Cover}
    (hcover : ∀ c, cover = some c → d.cover = some c ∨ c.seq = d.scanStartedSeq) :
    Retires d (retireActive { d with cover := cover } a) ∧
      ∀ i ∈ d.live, i ≠ a → i ∈ (retireActive { d with cover := cover } a).live := by
  have hk := @kills_deferredJobKill { d with cover := cover } a
  have hr : ({ deferredJobKill { d with cover := cover } a with active := none } : Queue).Ringed :=
    h.ringed.congr rfl rfl rfl
  have hc := (compacts_both hr).1
  refine ⟨Retires.compacts ?_ hc, ?_⟩
  · refine ⟨hr, fun i hi => hk.mem_live hi, .inr ⟨rfl, rfl⟩, rfl, rfl, ?_, ?_, ?_, hcover⟩
    · intro b hb
      cases ha.symm.trans hb
      refine .inr fun hl => ?_
      exact ne_of_mem_live hl (parentPath_deferredJobKill a) rfl
    · rintro b ⟨⟩
    · intro hb
      have := (h.active a ha).2.2
      rw [show d.batchActive = true from hb] at this
      cases this
  · intro i hi hne
    rw [retireActive, hc.live]
    exact hk.live_of_queue_eq hi (queue_deferredJobKill_of_ne hne)

/-- The end of a single scan that has seen every chain. -/
theorem Queue.WF.retires_deferredCoverSet (h : d.WF) {slot : ℕ} (ha : d.active = some slot)
    (alloc : Bool) :
    Retires d (retireActive (deferredCoverSet alloc d (d.queue slot) d.scanStartedSeq) slot) ∧
      ∀ i ∈ d.live, i ≠ slot → i ∈
        (retireActive (deferredCoverSet alloc d (d.queue slot) d.scanStartedSeq) slot).live := by
  apply h.retires_retireActive ha
  intro c hc
  split_ifs at hc
  cases hc
  exact .inr rfl

theorem queue_foldl_batchRetire : ∀ (l : List ℕ) (d : Queue), i ∉ l →
    (l.foldl batchRetire d).queue i = d.queue i
  | [], _, _ => rfl
  | j :: l, d, h => by
      rw [List.mem_cons, not_or] at h
      rw [List.foldl_cons, queue_foldl_batchRetire l _ h.2, batchRetire]
      split_ifs
      · exact queue_deferredJobKill_of_ne h.1
      · rfl

/-- The end of a batch scan; only members are retired. -/
theorem Queue.WF.retires_deferredBatchComplete (h : d.WF) (hb : d.batchActive = true) :
    Retires d (deferredBatchComplete d) ∧
      ∀ i ∈ d.live, i ∉ d.batchIdx → i ∈ (deferredBatchComplete d).live := by
  have hk := kills_foldl kills_batchRetire d.batchIdx d
  have hr : ({ d.batchIdx.foldl batchRetire d with
      batchActive := false, batchIdx := [] } : Queue).Ringed :=
    (hk.ringed h.ringed).congr rfl rfl rfl
  have hc := (compacts_both hr).1
  refine ⟨Retires.compacts ?_ hc, ?_⟩
  · refine ⟨hr, fun i hi => hk.mem_live hi, .inr ⟨hk.depthMin, hk.depthMax⟩, hk.scan.seq,
      hk.scan.started, ?_, ?_, ?_, ?_⟩
    · intro a ha
      rw [(h.active a ha).2.2] at hb
      cases hb
    · intro a ha
      have ha' : d.active = some a := hk.scan.active.symm.trans ha
      rw [(h.active a ha').2.2] at hb
      cases hb
    · rintro ⟨⟩
    · intro c hcov
      exact .inl (hk.scan.cover.symm.trans hcov)
  · intro i hi hne
    rw [deferredBatchComplete, hc.live]
    exact hk.live_of_queue_eq hi (queue_foldl_batchRetire _ _ hne)

theorem Queue.WF.cover_deferredBatchComplete (h : d.WF) :
    (deferredBatchComplete d).cover = d.cover := by
  have hk := kills_foldl kills_batchRetire d.batchIdx d
  have hr : ({ d.batchIdx.foldl batchRetire d with
      batchActive := false, batchIdx := [] } : Queue).Ringed :=
    (hk.ringed h.ringed).congr rfl rfl rfl
  rw [deferredBatchComplete, (compacts_both hr).1.scan.cover]
  exact hk.scan.cover

end Scans

/-! ### The cursors -/

section Cursor

variable {d : Queue}

theorem queue_setChainIdx (a n i : ℕ) : (d.setChainIdx a n).queue i =
    { d.queue i with chainIdx := if i = a then n else (d.queue i).chainIdx } := by
  simp only [Queue.setChainIdx, setSlot]
  split_ifs with h
  · rw [h]
  · rfl

theorem live_setChainIdx (a n : ℕ) : (d.setChainIdx a n).live = d.live := by
  apply live_eq_filter rfl
  intro i
  rw [queue_setChainIdx]

theorem setChainIdx_setChainIdx (a m n : ℕ) :
    (d.setChainIdx a m).setChainIdx a n = d.setChainIdx a n := by
  simp only [Queue.setChainIdx, setSlot]
  congr 1
  funext i
  split_ifs
  · rfl
  · rfl

theorem setChainIdx_self (a : ℕ) : d.setChainIdx a (d.queue a).chainIdx = d := by
  simp only [Queue.setChainIdx, setSlot]
  congr 1
  funext i
  split_ifs with h
  · rw [h]
  · rfl

theorem path_setChainIdx (a n i : ℕ) : ((d.setChainIdx a n).queue i).path = (d.queue i).path := by
  rw [queue_setChainIdx]
  rfl

theorem Queue.WF.setChainIdx (h : d.WF) (ha : d.active = some a) (n : ℕ) :
    (d.setChainIdx a n).WF := by
  have hcmp : deferredBatchCmp (d.setChainIdx a n) = deferredBatchCmp d := by
    funext x y
    rw [deferredBatchCmp, queue_setChainIdx, queue_setChainIdx]
    rfl
  refine ⟨h.ringed.congr rfl rfl rfl, ?_, ?_, ?_, ?_, ?_, ?_,
    h.started, ?_, ?_, h.cover⟩
  all_goals
    simp only [live_setChainIdx, queue_setChainIdx, hcmp]
  · exact h.seq_lt
  · exact h.seq_inj
  · intro i hi hne
    rw [if_neg]
    · exact h.fresh i hi hne
    · rintro rfl
      exact hne ha
  · exact h.depth
  · exact h.watermarks
  · exact h.active
  · exact h.batch
  · exact h.sorted

theorem Queue.WF.advanceBatch (h : d.WF) : d.advanceBatch.WF :=
  { h with ringed := h.ringed.congr rfl rfl rfl }

end Cursor

end Netatalk.Deferred
