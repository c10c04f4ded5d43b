import Netatalk.DeferredInvariant

/-! # An entry that a job has to purge

Fix a job and an entry below its path that was cached when the job was enqueued.  `Tracked`
says, while the entry stays cached, that the job is still queued, that the cursor of every
scan which must find the entry has not passed the position of the entry, and that no memo
covers the entry whose scan began after the job was enqueued.  Every event keeps that
(`Tracked.step`) as long as

* the entry is not skipped as the current directory by a scan that looks for it,
* no removal halves the table so that the entry comes to lie behind the cursor of a scan that
  looks for it, and
* the memo is less than `2 ^ 31` enqueued jobs older than the job. -/

namespace Netatalk.Deferred

open Hash

/-! ### Jobs and entries -/

/-- A job as it was enqueued. -/
structure Job where
  seq : ℕ
  path : List UInt8
  vid : UInt16

/-- The job number `q` is still queued. -/
def Queue.Pending (d : Queue) (q : ℕ) : Prop := ∃ i ∈ d.live, (d.queue i).seq = q

/-- Cursor of the scan in progress, and the entries that it removes. -/
def Queue.scan (d : Queue) : Option (ℕ × (Dir → Bool)) :=
  if d.batchActive then some (d.batchChainIdx, batchStale d)
  else d.active.map fun slot => ((d.queue slot).chainIdx, singleStale d slot)

/-- The scan that the next call works on looks for `e`, is at its position, and passes over it
because it is the current directory. -/
def Skipped (s : State) (e : Dir) : Prop :=
  Holds hkey s.dircache e ∧ s.curdir = some e.addr ∧
    ∃ c stale, (deferredSelect s.deferred).1.scan = some (c, stale) ∧
      c = chainOf hkey s.dircache e ∧ stale e = true

/-- Between `s` and `s'` the entry moves behind the cursor of a scan that looks for it. -/
def Stranded (s s' : State) (e : Dir) : Prop :=
  Holds hkey s.dircache e ∧ ∃ c stale, s.deferred.scan = some (c, stale) ∧ stale e = true ∧
    c ≤ chainOf hkey s.dircache e ∧ chainOf hkey s'.dircache e < c

/-- The entry `e` is still to be found by every scan that has to find it for the job `j`. -/
structure Tracked (j : Job) (e : Dir) (pos : ℕ) (d : Queue) : Prop where
  job : ∃ i ∈ d.live,
    (d.queue i).seq = j.seq ∧ (d.queue i).path = j.path ∧ (d.queue i).vVid = j.vid
  single : ∀ a, d.active = some a → e.isBelow (d.queue a).path = true →
    j.seq < d.scanStartedSeq → (d.queue a).chainIdx ≤ pos
  batch : d.batchActive = true → ∀ i ∈ d.batchIdx, (d.queue i).seq = j.seq →
    d.batchChainIdx ≤ pos
  cover : ∀ c, d.cover = some c → e.isBelow c.path = true → c.seq ≤ j.seq

variable {a i : ℕ} {ev : Event}

section Queue

variable {d d' : Queue} {j : Job} {e : Dir} {pos : ℕ}

section
variable (h : Tracked j e pos d)
include h

theorem Tracked.mono {pos' : ℕ} (hle : pos ≤ pos') : Tracked j e pos' d :=
  { h with
    single := fun a ha hb hs => (h.single a ha hb hs).trans hle
    batch := fun hb i hi hs => (h.batch hb i hi hs).trans hle }

/-- The slot with the number of the job holds the job. -/
theorem Tracked.slot (hw : d.WF) (hi : i ∈ d.live) (hs : (d.queue i).seq = j.seq) :
    (d.queue i).path = j.path ∧ (d.queue i).vVid = j.vid := by
  obtain ⟨k, hk, hks, hp, hv⟩ := h.job
  rw [hw.seq_inj i hi k hk (hs.trans hks.symm)]
  exact ⟨hp, hv⟩

/-- Other jobs are retired. -/
theorem Tracked.retires (hr : Retires d d')
    (hjob : ∀ i ∈ d.live, (d.queue i).seq = j.seq → i ∈ d'.live)
    (hcover : ∀ c, d'.cover = some c → e.isBelow c.path = true → c.seq ≤ j.seq) :
    Tracked j e pos d' where
  job := by
    obtain ⟨i, hi, hs, hp, hv⟩ := h.job
    have hi' := hjob i hi hs
    refine ⟨i, hi', ?_⟩
    rw [(hr.live i hi').2]
    exact ⟨hs, hp, hv⟩
  single := by
    intro a ha hb hs
    obtain ⟨ha', hl⟩ := hr.active_of a ha
    rw [(hr.live a hl).2] at hb ⊢
    rw [hr.started] at hs
    exact h.single a ha' hb hs
  batch := by
    intro hb i hi hs
    obtain ⟨hb', e1, _, e3, hl⟩ := hr.batch hb
    rw [e1] at hi
    rw [(hr.live i (hl i hi)).2] at hs
    rw [e3]
    exact h.batch hb' i hi hs
  cover := hcover

theorem Tracked.compacts (hw : d.WF) (hc : Compacts d d') : Tracked j e pos d' := by
  apply h.retires (hw.retires_self.compacts hc)
  · intro i hi _
    rw [hc.live]
    exact hi
  · rw [hc.scan.cover]
    exact h.cover

end

theorem isBelow_trans {p c : List UInt8} (h : e.isBelow p = true)
    (hpc : pathIsStrictChild p c = true) : e.isBelow c = true := by
  rw [Dir.isBelow] at h ⊢
  split at h
  · exact pathIsStrictChild_trans h hpc
  · cases h

/-- A dropped job is older than the memo, as far as the numbers tell, and lies at its path or
below. -/
theorem deferredCoverDrops_elim {c : DeferredCleanup} (h : deferredCoverDrops d c = true) :
    ∃ m, d.cover = some m ∧ seqBefore c.seq m.seq = true ∧
      (c.path = m.path ∨ pathIsStrictChild c.path m.path = true) := by
  rw [deferredCoverDrops] at h
  split at h
  · cases h
  · rename_i m hm
    rw [Bool.and_eq_true, Bool.and_eq_true] at h
    refine ⟨m, hm, h.1.1, ?_⟩
    obtain ⟨_, h2⟩ := h
    split_ifs at h2
    · exact .inl (eq_of_beq h2)
    · exact .inr h2

section
variable (h : Tracked j e pos d) (hw : d.WF) (hbelow : e.isBelow j.path = true)
  (hnum : ∀ c, d.cover = some c → j.seq < c.seq + 2147483648)
include h hw hbelow hnum

/-- A memo that is not too old drops no job whose entry is still to be found. -/
theorem Tracked.not_covered (hi : i ∈ d.live)
    (hs : (d.queue i).seq = j.seq) : deferredCoverDrops d (d.queue i) = false := by
  rw [← Bool.not_eq_true]
  intro hc
  obtain ⟨m, hm, hseq, hpath⟩ := deferredCoverDrops_elim hc
  rw [(h.slot hw hi hs).1] at hpath
  rw [seqBefore, decide_eq_true_eq] at hseq
  have hlt := hnum m hm
  have hle : m.seq ≤ j.seq := by
    apply h.cover m hm
    obtain hp | hp := hpath
    · rw [← hp]
      exact hbelow
    · exact isBelow_trans hbelow hp
  omega

theorem Tracked.select {sel : Selection} (hs : Selects d d' sel) : Tracked j e pos d' := by
  cases hs with
  | idle hc => exact h.compacts hw hc
  | batch | single => exact h
  | start ha hb hc hd hs =>
    have h' := h.compacts hw hc
    rw [deferredBatchStart] at hs
    split_ifs at hs
    cases hs
    exact { h' with batch := fun _ _ _ _ => Nat.zero_le pos }
  | @covered d₁ _ ha hb hc hl hcov hc' =>
    have h' := h.compacts hw hc
    have hw' := hw.compacts hc
    have ha' : d₁.active = none := hc.scan.active.trans ha
    have hb' : d₁.batchActive = false := hc.scan.batchActive.trans hb
    have hr := hw'.retires_kill ha' hb' d₁.last
    have h'' : Tracked j e pos (deferredJobKill d₁ d₁.last) := by
      apply h'.retires hr
      · intro i hi hs
        apply (kills_deferredJobKill d₁.last).live_of_queue_eq hi
        apply queue_deferredJobKill_of_ne
        rintro rfl
        have hnum' : ∀ c, d₁.cover = some c → j.seq < c.seq + 2147483648 := by
          rw [hc.scan.cover]
          exact hnum
        rw [h'.not_covered hw' hbelow hnum' hl hs] at hcov
        cases hcov
      · exact h'.cover
    exact h''.compacts (hw'.retires hr) hc'
  | activate ha hb hc hl =>
    have h' := h.compacts hw hc
    refine { h' with single := ?_ }
    rintro a ⟨⟩ _ _
    have hidle := hc.scan.active.trans ha
    have hz := (hw.compacts hc).fresh _ hl (hidle.trans_ne (Option.some_ne_none _).symm)
    rw [hz]
    exact Nat.zero_le pos

end

section
variable (hw : d.WF) (hc : d.count < maxDeferredCleanups) (vid : UInt16) (path : List UInt8)
include hw hc

/-- Further jobs are enqueued. -/
theorem Tracked.enqueue (h : Tracked j e pos d) : Tracked j e pos (deferredEnqueue d vid path) := by
  have hold := fun i (hi : i ∈ d.live) => hw.live_enqueue hc vid path hi
  refine ⟨?_, ?_, ?_, h.cover⟩
  · obtain ⟨i, hi, hs⟩ := h.job
    refine ⟨i, (hold i hi).1, ?_⟩
    rw [(hold i hi).2]
    exact hs
  · intro a ha hb hs
    rw [(hold a (hw.active a ha).1).2] at hb ⊢
    exact h.single a ha hb hs
  · intro hb i hi hs
    rw [(hold i (hw.batch hb i hi).1).2] at hs
    exact h.batch hb i hi hs

/-- A job that has just been enqueued: every scan in progress and the memo are older. -/
theorem tracked_deferredEnqueue (e : Dir) (pos : ℕ) :
    Tracked ⟨d.seq, path, vid⟩ e pos (deferredEnqueue d vid path) := by
  have hold : ∀ i ∈ d.live, ((deferredEnqueue d vid path).queue i).seq < d.seq := by
    intro i hi
    rw [(hw.live_enqueue hc vid path hi).2]
    exact hw.seq_lt i hi
  refine ⟨⟨d.tail, ?_, ?_⟩, ?_, ?_, ?_⟩
  · rw [live_deferredEnqueue hw.ringed hc]
    exact List.mem_append_right _ (List.mem_singleton_self _)
  · rw [queue_deferredEnqueue_tail]
    exact ⟨rfl, rfl, rfl⟩
  · intro a _ _ hs
    exact absurd hw.started hs.not_ge
  · intro hb i hi hs
    exact absurd hs (hold i (hw.batch hb i hi).1).ne
  · exact fun c hcov _ => hw.cover c hcov

end

end Queue

/-! ### One event -/

theorem Queue.WF.scan_single {d : Queue} (h : d.WF) (ha : d.active = some a) :
    d.scan = some ((d.queue a).chainIdx, singleStale d a) := by
  rw [Queue.scan, (h.active a ha).2.2, if_neg (by decide), ha, Option.map_some]

theorem Queue.scan_batch {d : Queue} (hb : d.batchActive = true) :
    d.scan = some (d.batchChainIdx, batchStale d) := by
  rw [Queue.scan, hb, if_pos rfl]

section State

variable [ByteOrder] {s s' : State} {j : Job} {e : Dir}

section
variable (h : s.WF) (he : Holds hkey s.dircache e)
include h he

theorem State.WF.did_ne : (e.dDid != cnidInvalid) = true := by
  have := not_reserved (h.number e he)
  rw [Dir.reserved, Bool.or_eq_false_iff] at this
  rw [bne, this.2, Bool.not_false]

/-- The scan of a job above the entry looks for it. -/
theorem State.WF.singleStale (hb : e.isBelow (s.deferred.queue a).path = true) :
    singleStale s.deferred a e = true := by
  rw [Deferred.singleStale, h.did_ne he, hb, Bool.and_self]

/-- The batch that the job is a member of looks for the entry. -/
theorem State.WF.batchStale (hb : s.deferred.batchActive = true) (hi : i ∈ s.deferred.batchIdx)
    (hbelow : e.isBelow (s.deferred.queue i).path = true) (hne : (s.deferred.queue i).path ≠ [])
    (hvid : e.dVid = (s.deferred.queue i).vVid) : batchStale s.deferred e = true := by
  rw [Deferred.batchStale, h.did_ne he, Bool.true_and]
  rw [Dir.isBelow] at hbelow
  split at hbelow
  · rw [hvid]
    exact h.queue.deferredBatchMatch_isSome hb hi hbelow hne
  · cases hbelow

end

/-- The job asks for the entry: it lies below the path of the job, which is not empty, on its
volume. -/
structure Job.Asks (j : Job) (e : Dir) : Prop where
  below : e.isBelow j.path = true
  path_ne : j.path ≠ []
  vid : e.dVid = j.vid

theorem Tracked.batchStale {pos : ℕ} (ht : Tracked j e pos s.deferred) (h : s.WF)
    (hj : j.Asks e) (he : Holds hkey s.dircache e) (hb : s.deferred.batchActive = true)
    (hi : i ∈ s.deferred.batchIdx) (hs : (s.deferred.queue i).seq = j.seq) :
    batchStale s.deferred e = true := by
  obtain ⟨hp, hv⟩ := ht.slot h.queue (h.queue.batch hb i hi).1 hs
  apply h.batchStale he hb hi
  · rw [hp]
    exact hj.below
  · rw [hp]
    exact hj.path_ne
  · rw [hv]
    exact hj.vid

section tracked
variable (ht : Tracked j e (chainOf hkey s.dircache e) s.deferred) (h : s.WF) (hj : j.Asks e)
include ht h hj

/-- The entry is behind no cursor after the work on one chain, unless it was passed over as the
current directory. -/
theorem Tracked.scan
    (hskip : ∀ c stale, s.deferred.scan = some (c, stale) → c = chainOf hkey s.dircache e →
      stale e = true → s.curdir ≠ some e.addr)
    (hs : ScanStep s s') (he : Holds hkey s'.dircache e) :
    Tracked j e (chainOf hkey s'.dircache e) s'.deferred := by
  cases hs with
  | none => exact ht
  | remove hr =>
    rw [hr.chain]
    exact ht
  | batch hb hr hclean =>
    have he' := hr.holds e he
    rw [hr.chain]
    refine { ht with batch := ?_ }
    intro _ i hi hs
    have hle := ht.batch hb i hi hs
    have hstale := ht.batchStale h hj he' hb hi hs
    refine lt_of_le_of_ne hle fun heq => ?_
    apply hskip _ _ (Queue.scan_batch hb) heq hstale
    exact hclean e he heq.symm hstale (h.volume e he') (not_reserved (h.number e he'))
  | @single t slot ha hr hclean =>
    have he' := hr.holds e he
    rw [hr.chain]
    refine ⟨?_, ?_, ?_, ht.cover⟩
    · obtain ⟨i, hi, hji⟩ := ht.job
      refine ⟨i, ?_, ?_⟩
      · rw [live_setChainIdx]
        exact hi
      · rw [path_setChainIdx, queue_setChainIdx]
        exact hji
    · intro a ha' hbelow hstart
      have hslot : a = slot := Option.some.inj (ha'.symm.trans ha)
      subst hslot
      rw [path_setChainIdx] at hbelow
      have hle := ht.single a ha hbelow hstart
      have hstale := h.singleStale he' hbelow
      rw [queue_setChainIdx]
      rw [if_pos rfl]
      refine lt_of_le_of_ne hle fun heq => ?_
      apply hskip _ _ (h.queue.scan_single ha) heq hstale
      exact hclean e he heq.symm hstale (not_reserved (h.number e he'))
    · intro hb
      have := (h.queue.active slot ha).2.2
      rw [show s.deferred.batchActive = true from hb] at this
      cases this

/-- The end of a scan does not retire the job while the entry is cached. -/
theorem Tracked.finish (he : Holds hkey s.dircache e) (hs : FinishStep s s') :
    Tracked j e (chainOf hkey s'.dircache e) s'.deferred := by
  have hlt := h.hash.chainOf_lt e
  cases hs with
  | none => exact ht
  | batch hb hn =>
    obtain ⟨hr, hstay⟩ := h.queue.retires_deferredBatchComplete hb
    apply ht.retires hr
    · intro i hi hs
      apply hstay i hi
      intro hm
      have := ht.batch hb i hm hs
      omega
    · rw [h.queue.cover_deferredBatchComplete]
      exact ht.cover
  | @closed slot ha hv =>
    obtain ⟨hr, hstay⟩ := h.queue.retires_retireActive ha fun _ => .inl
    apply ht.retires hr
    · intro i hi hs
      apply hstay i hi
      rintro rfl
      rw [(ht.slot h.queue hi hs).2, ← hj.vid, h.volume e he] at hv
      cases hv
    · rw [cover_retireActive h.queue.ringed]
      exact ht.cover
  | @single slot alloc ha hn =>
    obtain ⟨hr, hstay⟩ := h.queue.retires_deferredCoverSet ha alloc
    -- a scan that began after the job was enqueued cannot be at its end
    have hold : e.isBelow (s.deferred.queue slot).path = true →
        s.deferred.scanStartedSeq ≤ j.seq := by
      intro hb
      by_contra hlt'
      have := ht.single slot ha hb (by omega)
      omega
    apply ht.retires hr
    · intro i hi hs
      apply hstay i hi
      rintro rfl
      have hp := (ht.slot h.queue hi hs).1
      have := hold (by rw [hp]; exact hj.below)
      have := (h.queue.active i ha).2.1
      omega
    · intro c hc
      have hring : (deferredCoverSet alloc s.deferred (s.deferred.queue slot)
          s.deferred.scanStartedSeq).Ringed := h.queue.ringed.congr rfl rfl rfl
      rw [cover_retireActive hring] at hc
      rw [deferredCoverSet] at hc
      split_ifs at hc
      cases hc
      exact hold

/-- A whole call of the worker. -/
theorem Tracked.process (he₀ : Holds hkey s.dircache e) (hskip : ¬Skipped s e)
    (hnum : ∀ c, s.deferred.cover = some c → j.seq < c.seq + 2147483648) (grants : ℕ)
    (alloc : Bool) (he : Holds hkey (dircacheProcessDeferredChain grants alloc s).1.dircache e) :
    Tracked j e (chainOf hkey (dircacheProcessDeferredChain grants alloc s).1.dircache e)
      (dircacheProcessDeferredChain grants alloc s).1.deferred := by
  have hsel := selects_deferredSelect h.queue
  obtain ⟨s₁, hscan, hfin⟩ := dircacheProcessDeferredChain_phases h.hash h.queue grants alloc
  have h₀ := h.queue_only (hsel.wf h.queue)
  have h₁ := hscan.wf h₀
  have he₁ : Holds hkey s₁.dircache e := by
    rw [← hfin.dircache]
    exact he
  have ht₀ := ht.select h.queue hj.below hnum hsel
  have ht₁ := Tracked.scan ht₀ h₀ hj (fun c stale hc hpos hstale hcur =>
    hskip ⟨he₀, hcur, c, stale, hc, hpos, hstale⟩) hscan he₁
  exact ht₁.finish h₁ hj he₁ hfin

/-- An entry that a halving does not strand stays before the cursors. -/
theorem Tracked.resize (he : Holds hkey s.dircache e) (hq : s'.deferred = s.deferred)
    (hres : ¬Stranded s s' e) : Tracked j e (chainOf hkey s'.dircache e) s'.deferred := by
  rw [hq]
  refine ⟨ht.job, ?_, ?_, ht.cover⟩
  · intro a ha hb hs
    by_contra hlt
    exact hres ⟨he, _, _, h.queue.scan_single ha, h.singleStale he hb, ht.single a ha hb hs,
      by omega⟩
  · intro hb i hi hs
    by_contra hlt
    exact hres ⟨he, _, _, Queue.scan_batch hb, ht.batchStale h hj he hb hi hs,
      ht.batch hb i hi hs, by omega⟩

theorem Tracked.step (he : Holds hkey s.dircache e) (hs : step ev s = some s')
    (hskip : ev.isWork = true → ¬Skipped s e) (hres : ¬Stranded s s' e)
    (hnum : ev.isWork = true → ∀ c, s.deferred.cover = some c → j.seq < c.seq + 2147483648)
    (he' : Holds hkey s'.dircache e) : Tracked j e (chainOf hkey s'.dircache e) s'.deferred := by
  cases stepTo_of_step hs with
  | @insert dir realloc =>
    exact ht.mono (h.hash.chainOf_le_chainOf_hashInsert realloc dir e)
  | remove => exact ht.resize h hj he rfl hres
  | modifyPath | chdir | openvol | grant | revoke => exact ht
  | defer vid dir active alloc =>
    obtain e' | e' | ⟨path, _, hc, e'⟩ := dircacheRemoveChildrenDefer_cases vid dir active alloc s
    · rw [e']
      exact ht
    · rw [e']
      obtain ⟨hr, _, hq⟩ := removes_dircacheRemoveChildren h.hash dir
      rw [hr.chain, hq]
      exact ht
    · rw [e']
      exact ht.enqueue h.queue hc vid path
  | closevol vid flush =>
    obtain ⟨s₁, hr, hv, hq, hstay, hcover, e'⟩ := closevol_spec h vid flush
    rw [e'] at he' ⊢
    obtain ⟨_, hh⟩ := hr.valid.hashScanRemove_holds fun e => e.dVid == vid
    have hne : e.dVid ≠ vid := by simpa using ((hh e).mp he').1
    show Tracked j e (chainOf hkey (hashScanRemove hkey _ s₁.dircache) e) s₁.deferred
    rw [(removes_hashScanRemove hr.valid _).chain, hr.chain]
    apply ht.retires hq
    · intro i hi hs'
      apply hstay i hi
      rw [(ht.slot h.queue hi hs').2, ← hj.vid]
      exact hne
    · exact fun c hc => ht.cover c (hcover c hc)
  | work grants alloc =>
    exact ht.process h hj he (hskip rfl) (hnum rfl) grants alloc he'

end tracked

end State

/-! ### Runs -/

section Run

variable [ByteOrder]

/-- A step that does not insert the entry, and in which no scan that looks for the entry passes
over it as the current directory. -/
structure Stays (e : Dir) (ev : Event) (s s' : State) : Prop where
  step : step ev s = some s'
  kept : Holds hkey s'.dircache e → Holds hkey s.dircache e
  scanned : ev.isWork = true → ¬Skipped s e

variable {e : Dir} {s s' : State}

theorem stays_of_not_isWork (hstep : step ev s = some s')
    (hkept : Holds hkey s'.dircache e → Holds hkey s.dircache e) (hidle : ev.isWork = false) :
    Stays e ev s s' :=
  ⟨hstep, hkept, fun hwork => absurd hwork (Bool.eq_false_iff.mp hidle)⟩

/-- A run in whose steps the entry stays. -/
def StayingRun (e : Dir) : State → State → Prop :=
  Relation.ReflTransGen fun s s' => ∃ ev, Stays e ev s s'

/-- A step that neither moves the entry behind the cursor of a scan that looks for it, nor
compares the job with a memo that is `2 ^ 31` jobs older. -/
structure Orderly (q : ℕ) (e : Dir) (ev : Event) (s s' : State) : Prop where
  resized : ¬Stranded s s' e
  numbers : ev.isWork = true → ∀ c, s.deferred.cover = some c → q < c.seq + 2147483648

/-- A run in whose steps the entry stays and all is orderly. -/
def OrderlyRun (q : ℕ) (e : Dir) : State → State → Prop :=
  Relation.ReflTransGen fun s s' => ∃ ev, Stays e ev s s' ∧ Orderly q e ev s s'

theorem OrderlyRun.tracked {j : Job} (h : s.WF) (hj : j.Asks e)
    (ht : Tracked j e (chainOf hkey s.dircache e) s.deferred) (hr : OrderlyRun j.seq e s s') :
    s'.WF ∧ (Holds hkey s'.dircache e →
      Tracked j e (chainOf hkey s'.dircache e) s'.deferred) := by
  induction hr with
  | refl => exact ⟨h, fun _ => ht⟩
  | tail _ hs ih =>
    obtain ⟨ev, hstay, hord⟩ := hs
    refine ⟨ih.1.step hstay.step, fun he' => ?_⟩
    have he := hstay.kept he'
    exact (ih.2 he).step ih.1 hj he hstay.step hstay.scanned hord.resized hord.numbers he'

end Run

end Netatalk.Deferred
