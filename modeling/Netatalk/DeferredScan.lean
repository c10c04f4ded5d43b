import Mathlib.Data.List.Perm.Subperm
import Netatalk.DeferredTrack

/-! # A single scan under one grant

`Scanning slot s` says that the job of `slot` is being scanned for and that the worker holds a
grant.  A call then retires the job, or moves the cursor on, or unlinks entries of a chain that
has too many of them for one call (`Scanning.call`), so enough calls retire the job
(`Scanning.exists_retired`).  Calls that find nothing stale change nothing but the cursor
(`Scanning.run`). -/

namespace Netatalk.Deferred

open List Hash

/-! ### One chain -/

section Chain

variable {stale hasVol : Dir → Bool} {curdir : Option ℕ}

theorem collectLoop_of_clean (l acc : List Dir) (h : ∀ x ∈ l, stale x = false) :
    collectLoop stale curdir l acc = acc := by
  fun_induction collectLoop stale curdir l acc with
  | case1 => rfl
  | case2 _ _ _ _ ih | case5 _ _ _ _ _ ih => exact ih (forall_mem_cons.mp h).2
  | case3 _ _ _ _ hs | case4 _ _ _ _ hs => simp [h _ mem_cons_self] at hs

theorem collectLoop_subset (l acc : List Dir) :
    ∀ x ∈ collectLoop stale curdir l acc, x ∈ acc ∨ x ∈ l := by
  fun_induction collectLoop stale curdir l acc with
  | case1 | case4 => exact fun x => .inl
  | case2 e _ _ _ ih | case5 e _ _ _ _ ih =>
    exact fun x hx => (ih x hx).imp_right (mem_cons_of_mem e)
  | case3 e l acc _ _ _ ih =>
    intro x hx
    simpa [or_assoc] using ih x hx

theorem length_collectLoop_le (l acc : List Dir) (h : acc.length ≤ deferredChainBatch) :
    (collectLoop stale curdir l acc).length ≤ deferredChainBatch := by
  fun_induction collectLoop stale curdir l acc with
  | case1 | case4 => exact h
  | case2 _ _ _ _ ih | case5 _ _ _ _ _ ih => exact ih h
  | case3 e l acc _ _ hlt ih =>
    apply ih
    rw [List.length_append]
    exact hlt

variable [ByteOrder]

/-- A removal loop whose checks all find the grant comes to the end of its list. -/
theorem removeLoop_finished : ∀ (grants : ℕ) (l : List Dir) (t : Table Dir), l.length ≤ grants →
    (removeLoop hasVol grants l t).2 = true
  | _, [], _, _ => by rw [removeLoop]
  | grants + 1, e :: l, t, h => by
      exact removeLoop_finished grants l _ (Nat.le_of_succ_le_succ h)

variable {s : State} {chain : ℕ}

theorem scanChain_of_clean (grants : ℕ) (h : ∀ x ∈ s.dircache.table chain, stale x = false) :
    scanChain stale hasVol grants chain s = (s.dircache, true) := by
  have hl : ∀ x ∈ hashChainHead s.dircache chain, stale x = false := by
    rw [hashChainHead]
    split_ifs
    · exact h
    · rintro x ⟨⟩
  rw [scanChain, collectLoop_of_clean _ _ hl]
  simp only [removeLoop]
  rfl

/-- A chain that keeps the cursor loses entries. -/
theorem scanChain_shorter (h : s.WF) (hvol : ∀ e, hasVol e = true)
    (hadv : (scanChain stale hasVol deferredChainBatch chain s).2 = false) :
    ((scanChain stale hasVol deferredChainBatch chain s).1.table chain).length <
      (s.dircache.table chain).length := by
  have hr := (scanChain_spec h.hash stale hasVol deferredChainBatch chain).1
  simp only [scanChain] at hadv hr ⊢
  have hsub := @collectLoop_subset stale s.curdir (hashChainHead s.dircache chain) []
  have hle := @length_collectLoop_le stale s.curdir (hashChainHead s.dircache chain) []
    (Nat.zero_le _)
  generalize collectLoop stale s.curdir (hashChainHead s.dircache chain) [] = l
    at hadv hr hsub hle ⊢
  have hfin := @removeLoop_finished hasVol _ deferredChainBatch l s.dircache hle
  obtain ⟨_, hgone⟩ := removeLoop_spec hasVol deferredChainBatch l h.hash
  generalize removeLoop hasVol deferredChainBatch l s.dircache = r at *
  -- the list is full, so it has a first entry, which is gone from the chain
  rw [hfin, Bool.true_and, decide_eq_false_iff_not] at hadv
  cases l with
  | nil => exact absurd (by decide) hadv
  | cons e =>
    obtain hx | hx := hsub e mem_cons_self
    · cases hx
    rw [hashChainHead] at hx
    split_ifs at hx with hlt
    · obtain ⟨he, hchain⟩ := (h.hash.mem_table_iff hlt).mp hx
      have hnot := hgone hfin e mem_cons_self (hvol e) (not_reserved (h.number e he))
      have hlt' : chain < r.1.nchains := by
        rw [hr.nchains]
        exact hlt
      have hnew : ∀ x ∈ r.1.table chain, Holds hkey r.1 x ∧ chainOf hkey r.1 x = chain :=
        fun x => (hr.valid.mem_table_iff hlt').mp
      have hnd : (e :: r.1.table chain).Nodup :=
        nodup_cons.mpr ⟨fun hm => hnot (hnew e hm).1, hr.valid.nodup chain hlt'⟩
      refine (Nodup.subperm hnd fun x hx' => ?_).length_le
      obtain rfl | hx' := mem_cons.mp hx'
      · exact hx
      · obtain ⟨hh, hc⟩ := hnew x hx'
        rw [hr.chain] at hc
        exact (h.hash.mem_table_iff hlt).mpr ⟨hr.holds x hh, hc⟩
    · cases hx

end Chain

/-! ### One call -/

/-- A single scan of `slot` is in progress under a grant. -/
structure Scanning (slot : ℕ) (s : State) : Prop where
  canWork : s.canWork = true
  curdir : s.curdir = none
  count : s.deferred.count ≠ 0
  batch : s.deferred.batchActive = false
  active : s.deferred.active = some slot
  volume : s.getvolbyvid (s.deferred.queue slot).vVid = true
  cover : s.deferred.cover = none

/-- The state with the cursor of `slot` at chain `n`. -/
def State.atChain (s : State) (slot n : ℕ) : State :=
  { s with deferred := s.deferred.setChainIdx slot n }

/-- The job of an ended scan is no longer pending. -/
theorem Queue.WF.not_pending_retireActive {d : Queue} (h : d.WF) {slot : ℕ}
    (ha : d.active = some slot) (alloc : Bool) :
    ¬(retireActive (deferredCoverSet alloc d (d.queue slot) d.scanStartedSeq) slot).Pending
      (d.queue slot).seq := by
  rintro ⟨i, hi, hs⟩
  obtain ⟨hl, e⟩ := (h.retires_deferredCoverSet ha alloc).1.live i hi
  rw [e] at hs
  have hslot := h.seq_inj i hl slot (h.active slot ha).1 hs
  rw [hslot] at hi
  refine notMem_live_retireActive ?_ slot hi
  exact h.ringed.congr rfl rfl rfl

variable {e : Dir} {ev : Event} {s' : State}

section Scanning

variable {s : State} {slot : ℕ}

theorem Scanning.atChain (h : Scanning slot s) (n : ℕ) : Scanning slot (s.atChain slot n) := by
  refine { h with volume := ?_ }
  have := h.volume
  simp only [State.atChain, queue_setChainIdx]
  exact this

theorem Scanning.removes (h : Scanning slot s) (t : Table Dir) :
    Scanning slot { s with dircache := t } :=
  { h with }

theorem Scanning.wf_atChain [ByteOrder] (h : Scanning slot s) (hw : s.WF) (n : ℕ) :
    (s.atChain slot n).WF := hw.queue_only (hw.queue.setChainIdx h.active n)

theorem atChain_atChain (m n : ℕ) : (s.atChain slot m).atChain slot n = s.atChain slot n := by
  rw [State.atChain, State.atChain, setChainIdx_setChainIdx]
  rfl

theorem singleStale_atChain (n : ℕ) (x : Dir) :
    singleStale (s.atChain slot n).deferred slot x = singleStale s.deferred slot x := by
  simp only [State.atChain, singleStale, path_setChainIdx]

theorem queue_atChain (n : ℕ) : (s.atChain slot n).deferred.queue slot =
    { s.deferred.queue slot with chainIdx := n } := by
  simp only [State.atChain, queue_setChainIdx, if_pos]

theorem chainIdx_atChain (n : ℕ) : ((s.atChain slot n).deferred.queue slot).chainIdx = n := by
  rw [queue_atChain]

variable [ByteOrder]

theorem Scanning.step_work (h : Scanning slot s) (alloc : Bool) :
    step (.work deferredChainBatch alloc true) s =
      some { (deferredSingleChain deferredChainBatch alloc slot s).1 with canWork := true } := by
  have hselect : deferredSelect s.deferred = (s.deferred, .single slot) := by
    rw [deferredSelect, if_neg h.count, h.batch, if_neg (by decide), h.active]
  rw [step, h.canWork, dircacheProcessDeferredChain, hselect]
  rfl

theorem step_work_of_select {d : Queue} (hs : Scanning slot { s with deferred := d })
    (hd : deferredSelect s.deferred = (d, .single slot)) (alloc : Bool) :
    step (.work deferredChainBatch alloc true) s =
      step (.work deferredChainBatch alloc true) { s with deferred := d } := by
  have hw : s.canWork = true := hs.canWork
  rw [hs.step_work, step, dircacheProcessDeferredChain, hd, if_pos]
  rw [hw]
  decide

/-- A step without a current directory that only unlinks entries. -/
theorem stays_of_removes (hs : step ev s = some s')
    (hr : Removes s.dircache s'.dircache) (hcur : s.curdir = none) : Stays e ev s s' := by
  refine ⟨hs, hr.holds e, ?_⟩
  rintro _ ⟨_, hc, _⟩
  rw [hcur] at hc
  cases hc

omit [ByteOrder] in
theorem orderly_of_removes {q : ℕ} (hr : Removes s.dircache s'.dircache)
    (hcov : s.deferred.cover = none) : Orderly q e ev s s' := by
  refine ⟨?_, ?_⟩
  · rintro ⟨_, c, _, _, _, h1, h2⟩
    rw [hr.chain] at h2
    exact absurd h1 h2.not_ge
  · intro _ c hc
    rw [hcov] at hc
    cases hc

/-- A call retires the job, moves the cursor on or makes the chain at the cursor shorter. -/
theorem Scanning.call (h : Scanning slot s) (hw : s.WF) (alloc : Bool) :
    ∃ s', step (.work deferredChainBatch alloc true) s = some s' ∧
      Removes s.dircache s'.dircache ∧
      (¬s'.deferred.Pending (s.deferred.queue slot).seq ∨
        (s.deferred.queue slot).chainIdx < s.dircache.nchains ∧ Scanning slot s' ∧
          (s'.deferred.queue slot).seq = (s.deferred.queue slot).seq ∧
          ((s'.deferred.queue slot).chainIdx = (s.deferred.queue slot).chainIdx + 1 ∨
            (s'.deferred.queue slot).chainIdx = (s.deferred.queue slot).chainIdx ∧
              (s'.dircache.table (s.deferred.queue slot).chainIdx).length <
                (s.dircache.table (s.deferred.queue slot).chainIdx).length)) := by
  have hr := (scanChain_spec hw.hash (singleStale s.deferred slot) (fun _ => true)
    deferredChainBatch (s.deferred.queue slot).chainIdx).1
  refine ⟨_, h.step_work alloc, ?_⟩
  simp only [deferredSingleChain, h.volume, Bool.not_true, if_neg Bool.false_ne_true]
  split_ifs with hn hadv hlast
  · exact ⟨.refl hw.hash, .inl (hw.queue.not_pending_retireActive h.active alloc)⟩
  · refine ⟨hr, .inl ?_⟩
    have hq := (hw.queue.setChainIdx h.active ((s.deferred.queue slot).chainIdx + 1))
    have := hq.not_pending_retireActive h.active alloc
    rw [queue_setChainIdx] at this
    rw [queue_setChainIdx]
    exact this
  · refine ⟨hr, .inr ⟨by omega, ?_, ?_, .inl ?_⟩⟩
    · have := (h.atChain ((s.deferred.queue slot).chainIdx + 1)).removes
        (scanChain (singleStale s.deferred slot) (fun _ => true) deferredChainBatch
          (s.deferred.queue slot).chainIdx s).1
      exact { this with canWork := rfl }
    · rw [queue_setChainIdx]
    · rw [queue_setChainIdx]
      exact if_pos rfl
  · rw [Bool.not_eq_true] at hadv
    refine ⟨hr, .inr ⟨by omega, ?_, rfl, .inr ⟨rfl, ?_⟩⟩⟩
    · exact { h with canWork := rfl }
    · exact scanChain_shorter hw (fun _ => rfl) hadv

/-- Enough calls retire the job: every other call leaves fewer chains, or as many of them and
fewer entries in the first. -/
theorem Scanning.exists_retired (q : ℕ) (e : Dir) {s : State} (h : Scanning slot s) (hw : s.WF) :
    ∃ s', OrderlyRun q e s s' ∧ ¬s'.deferred.Pending (s.deferred.queue slot).seq := by
  obtain ⟨s₁, hs, hr, hcase⟩ := h.call hw true
  have hstep : ∃ ev, Stays e ev s s₁ ∧ Orderly q e ev s s₁ :=
    ⟨_, stays_of_removes hs hr h.curdir, orderly_of_removes hr h.cover⟩
  obtain hnot | ⟨hlt, h₁, hseq, hless⟩ := hcase
  · exact ⟨s₁, .single hstep, hnot⟩
  · obtain ⟨s', hrun, hnot⟩ := Scanning.exists_retired q e h₁ (hw.step hs)
    rw [hseq] at hnot
    exact ⟨s', hrun.head hstep, hnot⟩
termination_by (s.dircache.nchains - (s.deferred.queue slot).chainIdx,
  (s.dircache.table (s.deferred.queue slot).chainIdx).length)
decreasing_by
  rw [hr.nchains, Prod.lex_def]
  obtain hidx | ⟨hidx, hshort⟩ := hless
  · exact .inl (by omega)
  · exact .inr ⟨by omega, by rw [hidx]; exact hshort⟩

/-- A call with the cursor at the end of the table retires the job. -/
theorem Scanning.step_retire (h : Scanning slot s)
    (hn : s.dircache.nchains ≤ (s.deferred.queue slot).chainIdx) :
    step (.work deferredChainBatch true true) s =
      some { s with
        deferred := retireActive (deferredCoverSet true s.deferred (s.deferred.queue slot)
          s.deferred.scanStartedSeq) slot } := by
  rw [h.step_work]
  simp only [deferredSingleChain]
  rw [h.volume, if_neg (by decide), if_pos hn, ← h.canWork]

/-- A call on a chain without stale entries moves the cursor. -/
theorem Scanning.work_of_clean (h : Scanning slot s)
    (hlt : (s.deferred.queue slot).chainIdx + 1 < s.dircache.nchains)
    (hclean : ∀ x ∈ s.dircache.table (s.deferred.queue slot).chainIdx,
      singleStale s.deferred slot x = false) :
    step (.work deferredChainBatch true true) s =
      some (s.atChain slot ((s.deferred.queue slot).chainIdx + 1)) := by
  rw [h.step_work]
  simp only [deferredSingleChain]
  rw [h.volume, if_neg (by decide), if_neg (by omega),
    scanChain_of_clean _ hclean, if_pos rfl, if_neg (by omega), ← h.canWork]
  rfl

/-- Calls on chains without stale entries move the cursor only. -/
theorem Scanning.run (h : Scanning slot s) (hw : s.WF) (e : Dir) : ∀ n : ℕ,
    (s.deferred.queue slot).chainIdx + n < s.dircache.nchains →
    (∀ i < (s.deferred.queue slot).chainIdx + n, ∀ x ∈ s.dircache.table i,
      singleStale s.deferred slot x = false) →
    StayingRun e s (s.atChain slot ((s.deferred.queue slot).chainIdx + n))
  | 0, _, _ => by
      rw [add_zero, State.atChain, setChainIdx_self]
      exact .refl
  | n + 1, hlt, hclean => by
      have ih := Scanning.run h hw e n (by omega) fun i hi => hclean i (by omega)
      have hs := (h.atChain ((s.deferred.queue slot).chainIdx + n)).work_of_clean
      rw [chainIdx_atChain, atChain_atChain] at hs
      have hstep := hs hlt fun x hx => by
        rw [singleStale_atChain]
        exact hclean _ (by omega) x hx
      exact ih.tail ⟨_, stays_of_removes hstep (.refl hw.hash) h.curdir⟩

end Scanning

/-! ### A job in an otherwise empty queue -/

section Alone

variable {d : Queue} {vid : UInt16} {path : List UInt8}

section
variable (h : d.Ringed) (h0 : d.count = 0)
include h h0

theorem last_deferredEnqueue :
    (deferredEnqueue d vid path).last = d.tail ∧ (deferredEnqueue d vid path).head = d.tail := by
  have hc : d.count < maxDeferredCleanups := by
    rw [h0]
    exact maxDeferredCleanups_pos
  have hhead : d.head = d.tail := by
    rw [h.tail_eq, h0, add_zero, Nat.mod_eq_of_lt h.head_lt]
  refine ⟨?_, hhead⟩
  rw [(ringed_deferredEnqueue h hc).last_eq (n := 0) (congrArg Nat.succ h0)]
  show (d.head + 0) % maxDeferredCleanups = d.tail
  rw [add_zero, Nat.mod_eq_of_lt h.head_lt, hhead]

theorem deferredCompact_deferredEnqueue :
    deferredCompactHead (deferredCompactTail (deferredEnqueue d vid path)) =
      deferredEnqueue d vid path := by
  obtain ⟨hlast, hhead⟩ := @last_deferredEnqueue d vid path h h0
  have hcount : (deferredEnqueue d vid path).count = 1 := congrArg Nat.succ h0
  have hloop : compactTailLoop 1 (deferredEnqueue d vid path) = deferredEnqueue d vid path := by
    rw [compactTailLoop, hlast, queue_deferredEnqueue_tail, if_pos (Option.some_ne_none path)]
  have htail : deferredCompactTail (deferredEnqueue d vid path) = deferredEnqueue d vid path := by
    rw [deferredCompactTail, hcount, hloop, hcount, if_neg Nat.one_ne_zero]
  rw [htail, deferredCompactHead, hcount, compactHeadLoop, hhead, queue_deferredEnqueue_tail,
    if_neg (Option.some_ne_none path)]

/-- The worker takes up the only job. -/
theorem deferredSelect_deferredEnqueue (ha : d.active = none) (hb : d.batchActive = false)
    (hc : d.cover = none) : deferredSelect (deferredEnqueue d vid path) =
      ({ deferredEnqueue d vid path with active := some d.tail, scanStartedSeq := d.seq + 1 },
        .single d.tail) := by
  have hcount : (deferredEnqueue d vid path).count = 1 := congrArg Nat.succ h0
  have hactive : (deferredEnqueue d vid path).active = none := ha
  have hbatch : (deferredEnqueue d vid path).batchActive = false := hb
  have hcover : deferredCoverDrops (deferredEnqueue d vid path)
      ((deferredEnqueue d vid path).queue d.tail) = false := by
    rw [deferredCoverDrops, show (deferredEnqueue d vid path).cover = none from hc]
  rw [deferredSelect, hactive, hbatch]
  simp only [deferredCompact_deferredEnqueue h h0, hcount, (last_deferredEnqueue h h0).1, hcover]
  rfl

end

end Alone

/-! ### From the enqueuing to the end -/

/-- The worker has nothing to do and no grant. -/
structure Resting (s : State) : Prop where
  canWork : s.canWork = false
  curdir : s.curdir = none
  count : s.deferred.count = 0
  active : s.deferred.active = none
  batch : s.deferred.batchActive = false
  cover : s.deferred.cover = none

/-- The state in which the worker has a grant and has taken up a job enqueued in `s`. -/
def State.takeUp (s : State) (vid : UInt16) (path : List UInt8) : State :=
  { s with
    deferred := { deferredEnqueue s.deferred vid path with
      active := some s.deferred.tail, scanStartedSeq := s.deferred.seq + 1 }
    canWork := true }

section Resting

variable [ByteOrder] {s : State} {vid : UInt16} {dir : Dir} {path : List UInt8}

omit [ByteOrder] in
theorem Resting.count_lt (h : Resting s) : s.deferred.count < maxDeferredCleanups := by
  rw [h.count]
  exact maxDeferredCleanups_pos

theorem Resting.step_defer (h : Resting s) (hpath : dir.dFullpath = some path)
    (hdir : dir.isFile = false) : step (.defer vid dir true true) s =
      some { s with deferred := deferredEnqueue s.deferred vid path } := by
  have hdefer : dircacheRemoveChildrenDefer vid dir true true s =
      { s with deferred := deferredEnqueue s.deferred vid path } := by
    rw [dircacheRemoveChildrenDefer, hpath]
    simp only [hdir]
    rw [if_neg (by decide), if_neg]
    simpa using h.count_lt
  rw [step, hdefer, h.canWork]
  rfl

omit [ByteOrder] in
theorem pending_deferredEnqueue {d : Queue} (h : d.Ringed) (hc : d.count < maxDeferredCleanups) :
    (deferredEnqueue d vid path).Pending d.seq := by
  refine ⟨d.tail, ?_, ?_⟩
  · rw [live_deferredEnqueue h hc]
    exact mem_append_right _ (mem_singleton_self _)
  · rw [queue_deferredEnqueue_tail]

theorem Resting.wf_takeUp (h : Resting s) (hw : s.WF) : (s.takeUp vid path).WF := by
  have hq := hw.queue.enqueue h.count_lt vid path
  have hs := selects_deferredSelect hq
  rw [deferredSelect_deferredEnqueue hw.queue.ringed h.count h.active h.batch h.cover] at hs
  exact hw.of_removes (.refl hw.hash) rfl (hs.wf hq)

omit [ByteOrder] in
theorem Resting.scanning_takeUp (h : Resting s) (hvol : s.getvolbyvid vid = true) :
    Scanning s.deferred.tail (s.takeUp vid path) := by
  refine { h with canWork := rfl, count := Nat.succ_ne_zero _, active := rfl, volume := ?_ }
  show s.getvolbyvid ((deferredEnqueue s.deferred vid path).queue s.deferred.tail).vVid = true
  rw [queue_deferredEnqueue_tail]
  exact hvol

theorem Resting.step_work (h : Resting s) (hw : s.WF) (hvol : s.getvolbyvid vid = true) :
    step (.work deferredChainBatch true true)
        { s with deferred := deferredEnqueue s.deferred vid path, canWork := true } =
      step (.work deferredChainBatch true true) (s.takeUp vid path) :=
  step_work_of_select (h.scanning_takeUp hvol)
    (deferredSelect_deferredEnqueue hw.queue.ringed h.count h.active h.batch h.cover) true

theorem Resting.step_grant (h : Resting s) :
    step .grant { s with deferred := deferredEnqueue s.deferred vid path } =
      some { s with deferred := deferredEnqueue s.deferred vid path, canWork := true } := by
  rw [show s.canWork = false from h.canWork]
  rfl

omit [ByteOrder] in
theorem queue_takeUp : (s.takeUp vid path).deferred.queue s.deferred.tail =
    { parentPath := some path, vVid := vid, chainIdx := 0, seq := s.deferred.seq,
      depth := path.count slash } := queue_deferredEnqueue_tail

section
variable (h : Resting s) (hw : s.WF) (hvol : s.getvolbyvid vid = true) (e : Dir)
include h hw hvol

/-- A purge that is deferred while the worker has nothing to do is retired by enough calls. -/
theorem Resting.exists_retired : ∃ s', OrderlyRun s.deferred.seq e
        { s with deferred := deferredEnqueue s.deferred vid path } s' ∧
      ¬s'.deferred.Pending s.deferred.seq := by
  have hscan := @Resting.scanning_takeUp s vid path h hvol
  have hw' := @Resting.wf_takeUp _ s vid path h hw
  obtain ⟨s₁, hs, hr, hcase⟩ := hscan.call hw' true
  have hw₁ := hw'.step hs
  rw [← h.step_work hw hvol] at hs
  have hfirst : OrderlyRun s.deferred.seq e
      { s with deferred := deferredEnqueue s.deferred vid path } s₁ := by
    refine .tail (.single ⟨_, stays_of_removes h.step_grant (.refl hw.hash) h.curdir,
      orderly_of_removes (.refl hw.hash) h.cover⟩) ?_
    exact ⟨_, stays_of_removes hs hr h.curdir, orderly_of_removes hr h.cover⟩
  rw [queue_takeUp] at hcase
  obtain hnot | ⟨_, h₁, hseq₁, _⟩ := hcase
  · exact ⟨s₁, hfirst, hnot⟩
  · obtain ⟨s', hrun, hnot⟩ := h₁.exists_retired s.deferred.seq e hw₁
    rw [hseq₁] at hnot
    exact ⟨s', hfirst.trans hrun, hnot⟩

/-- The scan comes to chain `n + 1` if it finds nothing on the way. -/
theorem Resting.run_of_clean {n : ℕ} (hn : n + 1 < s.dircache.nchains)
    (hclean : ∀ i ≤ n, ∀ x ∈ s.dircache.table i, x.isBelow path = false) :
    StayingRun e { s with deferred := deferredEnqueue s.deferred vid path }
      ((s.takeUp vid path).atChain s.deferred.tail (n + 1)) := by
  have hscan := @Resting.scanning_takeUp s vid path h hvol
  have hw' := @Resting.wf_takeUp _ s vid path h hw
  have hstale : ∀ i ≤ n, ∀ x ∈ s.dircache.table i,
      singleStale (s.takeUp vid path).deferred s.deferred.tail x = false := by
    intro i hi x hx
    rw [singleStale, queue_takeUp]
    show (_ && x.isBelow path) = false
    rw [hclean i hi x hx, Bool.and_false]
  have hfirst := hscan.work_of_clean
  rw [queue_takeUp] at hfirst
  have hfirst := hfirst ((Nat.succ_le_succ (Nat.zero_le n)).trans_lt hn)
    (hstale 0 (Nat.zero_le n))
  rw [← h.step_work hw hvol] at hfirst
  have hrest := (hscan.atChain 1).run (hscan.wf_atChain hw' 1) e n
  rw [chainIdx_atChain, atChain_atChain] at hrest
  have hrest := hrest (by rw [Nat.add_comm]; exact hn) fun i hi x hx => by
    rw [singleStale_atChain]
    exact hstale i (by omega) x hx
  rw [Nat.add_comm] at hrest
  refine .trans (.tail (.single ⟨_, stays_of_removes h.step_grant (.refl hw.hash)
    h.curdir⟩) ⟨_, stays_of_removes hfirst (.refl hw.hash) h.curdir⟩) hrest

end

end Resting

end Netatalk.Deferred
