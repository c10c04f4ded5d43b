import Netatalk.DeferredSystem

/-! # The invariant of the deferred purges

`State.WF` holds in every reachable state (`Reachable.wf`): the hash table is valid, no two
cached entries share volume and number, every cached entry has an ordinary number and an open
volume, and the queue is in order.  On the way every part of a call of the worker gets its
description: `Selects` says what the selection of a scan can do to the queue, `scanChain_spec`
what the work on one chain does to the table, and `Retires` what the end of a scan does. -/

namespace Netatalk.Deferred

open List Hash

/-! ### Work on the table -/

/-- `t'` is `t` with some entries unlinked. -/
structure Removes (t t' : Table Dir) : Prop where
  valid : Valid hkey t'
  holds : ∀ e, Holds hkey t' e → Holds hkey t e
  chain : ∀ e, chainOf hkey t' e = chainOf hkey t e
  nchains : t'.nchains = t.nchains

variable {dir e : Dir}

section Removes

variable {t t' t'' : Table Dir}

theorem Removes.refl (h : Valid hkey t) : Removes t t := ⟨h, fun _ => id, fun _ => rfl, rfl⟩

theorem Removes.trans (h : Removes t t') (h' : Removes t' t'') : Removes t t'' where
  valid := h'.valid
  holds := fun e he => h.holds e (h'.holds e he)
  chain := fun e => (h'.chain e).trans (h.chain e)
  nchains := h'.nchains.trans h.nchains

theorem removes_hashScanDelete (h : Valid hkey t) (e : Dir) :
    Removes t (hashScanDelete hkey t e) := by
  obtain ⟨hv, hh⟩ := h.hashScanDelete_holds e
  exact ⟨hv, fun m hm => ((hh m).mp hm).2, fun _ => rfl, rfl⟩

theorem removes_foldl (l : List Dir) : ∀ {t : Table Dir}, Valid hkey t →
    Removes t (l.foldl (hashScanDelete hkey) t) := by
  induction l with
  | nil => exact fun h => .refl h
  | cons e l ih =>
    intro t h
    have h1 := removes_hashScanDelete h e
    exact h1.trans (ih h1.valid)

theorem removes_hashScanRemove (h : Valid hkey t) (p : Dir → Bool) :
    Removes t (hashScanRemove hkey p t) := removes_foldl _ h

variable [ByteOrder]

theorem removes_dirRemoveAndFree (h : Valid hkey t) (e : Dir) :
    Removes t (dirRemoveAndFree t e) := by
  rw [dirRemoveAndFree]
  split_ifs
  · exact .refl h
  · exact removes_hashScanDelete h e

/-- The removal loop unlinks entries only, and all it was given if it comes to the end. -/
theorem removeLoop_spec (hasVol : Dir → Bool) (grants : ℕ) (l : List Dir) {t : Table Dir}
    (h : Valid hkey t) : Removes t (removeLoop hasVol grants l t).1 ∧
      ((removeLoop hasVol grants l t).2 = true → ∀ e ∈ l, hasVol e = true →
        e.reserved = false → ¬Holds hkey (removeLoop hasVol grants l t).1 e) := by
  fun_induction removeLoop hasVol grants l t with
  | case1 | case2 => exact ⟨.refl h, by simp⟩
  | case3 grants e l t ih =>
    have h1 : Removes t (if hasVol e then dirRemoveAndFree t e else t) := by
      split_ifs
      · exact removes_dirRemoveAndFree h e
      · exact .refl h
    obtain ⟨h2, hgone⟩ := ih h1.valid
    refine ⟨h1.trans h2, fun hf => forall_mem_cons.2 ⟨fun hvol hres hh => ?_, hgone hf⟩⟩
    have := h2.holds e hh
    rw [if_pos hvol] at this
    rw [dirRemoveAndFree, hres, if_neg (by decide), (h.hashScanDelete_holds e).2] at this
    exact this.1 rfl

omit [ByteOrder] in
/-- A collection that did not fill up holds every stale entry of the chain but `curdir`. -/
theorem mem_collectLoop (stale : Dir → Bool) (curdir : Option ℕ) (l acc : List Dir) :
    (∀ e ∈ acc, e ∈ collectLoop stale curdir l acc) ∧
      ((collectLoop stale curdir l acc).length < deferredChainBatch →
        ∀ e ∈ l, stale e = true → curdir ≠ some e.addr → e ∈ collectLoop stale curdir l acc) := by
  fun_induction collectLoop stale curdir l acc with
  | case1 => exact ⟨fun _ => id, by simp⟩
  | case2 e l acc hcur ih =>
    refine ⟨ih.1, fun hlt => forall_mem_cons.2 ⟨?_, ih.2 hlt⟩⟩
    exact fun _ hc => absurd hcur hc
  | case3 e l acc _ _ _ ih =>
    refine ⟨fun m hm => ih.1 m (mem_append_left _ hm), fun hlt => forall_mem_cons.2 ⟨?_, ih.2 hlt⟩⟩
    exact fun _ _ => ih.1 e (mem_append_right _ (mem_singleton_self e))
  | case4 e l acc _ _ hfull => exact ⟨fun _ => id, fun hlt => absurd hlt hfull⟩
  | case5 e l acc _ hstale ih =>
    refine ⟨ih.1, fun hlt => forall_mem_cons.2 ⟨?_, ih.2 hlt⟩⟩
    exact fun hs => absurd hs hstale

/-- The work on one chain unlinks entries only; when the cursor moves on, no stale entry is
left in the chain that is not `curdir`, has an open volume and an ordinary number. -/
theorem scanChain_spec {s : State} (h : Valid hkey s.dircache) (stale hasVol : Dir → Bool)
    (grants chain : ℕ) : Removes s.dircache (scanChain stale hasVol grants chain s).1 ∧
      ((scanChain stale hasVol grants chain s).2 = true → ∀ e,
        Holds hkey (scanChain stale hasVol grants chain s).1 e →
        chainOf hkey s.dircache e = chain → stale e = true → hasVol e = true →
        e.reserved = false → s.curdir = some e.addr) := by
  obtain ⟨h1, hgone⟩ := removeLoop_spec hasVol grants
    (collectLoop stale s.curdir (hashChainHead s.dircache chain) []) h
  refine ⟨h1, fun hadv e he hchain hs hvol hres => ?_⟩
  obtain ⟨hfin, hlen⟩ := Bool.and_eq_true_iff.mp hadv
  by_contra hcur
  refine hgone hfin e ?_ hvol hres he
  apply (mem_collectLoop stale s.curdir _ []).2 (of_decide_eq_true hlen) e _ hs hcur
  have hlt := h.chainOf_lt e
  rw [hchain] at hlt
  rw [hashChainHead, if_pos hlt, h.mem_table_iff hlt]
  exact ⟨h1.holds e he, hchain⟩

end Removes

/-! ### Selection -/

/-- What the selection of a scan can do: nothing but compaction, go on with a scan, start a
batch, drop a covered job, or start a single scan. -/
inductive Selects (d : Queue) : Queue → Selection → Prop
  | idle {d'} (hc : Compacts d d') : Selects d d' .idle
  | batch (hb : d.batchActive = true) : Selects d d .batch
  | single {slot} (ha : d.active = some slot) : Selects d d (.single slot)
  | start {d' d''} (ha : d.active = none) (hb : d.batchActive = false) (hc : Compacts d d')
      (hd : d'.depthMin = d'.depthMax) (hs : deferredBatchStart d' = some d'') :
      Selects d d'' .batch
  | covered {d' d''} (ha : d.active = none) (hb : d.batchActive = false) (hc : Compacts d d')
      (hl : d'.last ∈ d'.live) (hcov : deferredCoverDrops d' (d'.queue d'.last) = true)
      (hc' : Compacts (deferredJobKill d' d'.last) d'') : Selects d d'' .idle
  | activate {d'} (ha : d.active = none) (hb : d.batchActive = false) (hc : Compacts d d')
      (hl : d'.last ∈ d'.live) :
      Selects d { d' with active := some d'.last, scanStartedSeq := d'.seq } (.single d'.last)

theorem selects_deferredSelect {d : Queue} (h : d.WF) :
    Selects d (deferredSelect d).1 (deferredSelect d).2 := by
  rw [deferredSelect]
  split_ifs with h0 hb
  · exact .idle (.refl h.ringed)
  · exact .batch hb
  · rw [Bool.not_eq_true] at hb
    cases ha : d.active with
    | some => exact .single ha
    | none =>
      obtain ⟨hc, hlast⟩ := compacts_both h.ringed
      dsimp only
      split_ifs with h1 h2 h3
      · exact .idle hc
      · cases hs : deferredBatchStart (deferredCompactHead (deferredCompactTail d)) with
        | none => exact .idle hc
        | some =>
          rw [Bool.and_eq_true, beq_iff_eq] at h2
          exact .start ha hb hc h2.2 hs
      · have hl := hlast h1
        rw [← hc.live] at hl
        refine .covered ha hb hc hl h3 ?_
        exact (compacts_deferredCompactTail ((kills_deferredJobKill _).ringed hc.ringed)).1
      · have hl := hlast h1
        rw [← hc.live] at hl
        exact .activate ha hb hc hl

theorem Selects.wf {d d' : Queue} {sel : Selection} (h : d.WF) (hs : Selects d d' sel) : d'.WF := by
  cases hs with
  | idle hc => exact h.compacts hc
  | batch | single => exact h
  | start ha hb hc hd hs => exact (h.compacts hc).batchStart (hc.scan.active.trans ha) hd hs
  | covered ha hb hc hl hcov hc' =>
    have h' := h.compacts hc
    exact h'.retires ((h'.retires_kill (hc.scan.active.trans ha)
      (hc.scan.batchActive.trans hb) _).compacts hc')
  | activate ha hb hc hl =>
    exact (h.compacts hc).activate (hc.scan.active.trans ha) (hc.scan.batchActive.trans hb) hl

theorem Selects.batchActive {d d' : Queue} (hs : Selects d d' .batch) : d'.batchActive = true := by
  cases hs with
  | batch hb => exact hb
  | start ha hb hc hd hs =>
    rw [deferredBatchStart] at hs
    split_ifs at hs
    cases hs
    rfl

theorem Selects.active {d d' : Queue} {slot : ℕ} (hs : Selects d d' (.single slot)) :
    d'.active = some slot := by
  cases hs with
  | single ha => exact ha
  | activate => rfl

/-! ### The phases of a call -/

section Phases

variable [ByteOrder]

/-- What a call does to one chain: nothing, unlinking without moving on, or unlinking all
there is and moving the cursor of the batch or of the active job. -/
inductive ScanStep (s : State) : State → Prop
  | none : ScanStep s s
  | remove {t} (hr : Removes s.dircache t) : ScanStep s { s with dircache := t }
  | batch {t} (hb : s.deferred.batchActive = true) (hr : Removes s.dircache t)
      (hclean : ∀ e, Holds hkey t e → chainOf hkey s.dircache e = s.deferred.batchChainIdx →
        batchStale s.deferred e = true → s.getvolbyvid e.dVid = true → e.reserved = false →
        s.curdir = some e.addr) :
      ScanStep s
        { s with
          dircache := t
          deferred := s.deferred.advanceBatch }
  | single {t slot} (ha : s.deferred.active = some slot) (hr : Removes s.dircache t)
      (hclean : ∀ e, Holds hkey t e →
        chainOf hkey s.dircache e = (s.deferred.queue slot).chainIdx →
        singleStale s.deferred slot e = true → e.reserved = false → s.curdir = some e.addr) :
      ScanStep s
        { s with
          dircache := t
          deferred := s.deferred.setChainIdx slot ((s.deferred.queue slot).chainIdx + 1) }

/-- How a call ends: with a scan left to do, at the end of a batch, with a job whose volume is
closed, or at the end of a single scan. -/
inductive FinishStep (s : State) : State → Prop
  | none : FinishStep s s
  | batch (hb : s.deferred.batchActive = true)
      (hn : s.dircache.nchains ≤ s.deferred.batchChainIdx) :
      FinishStep s { s with deferred := deferredBatchComplete s.deferred }
  | closed {slot} (ha : s.deferred.active = some slot)
      (hv : s.getvolbyvid (s.deferred.queue slot).vVid = false) :
      FinishStep s { s with deferred := retireActive s.deferred slot }
  | single {slot} (alloc : Bool) (ha : s.deferred.active = some slot)
      (hn : s.dircache.nchains ≤ (s.deferred.queue slot).chainIdx) :
      FinishStep s
        { s with
          deferred := retireActive (deferredCoverSet alloc s.deferred (s.deferred.queue slot)
            s.deferred.scanStartedSeq) slot }

theorem deferredBatchChain_phases {s : State} (h : Valid hkey s.dircache)
    (hb : s.deferred.batchActive = true) (grants : ℕ) :
    ∃ s', ScanStep s s' ∧ FinishStep s' (deferredBatchChain grants s).1 := by
  obtain ⟨hr, hclean⟩ := scanChain_spec h (batchStale s.deferred)
    (fun e => s.getvolbyvid e.dVid) grants s.deferred.batchChainIdx
  simp only [deferredBatchChain]
  split_ifs with hn hadv hn'
  · exact ⟨s, .none, .batch hb hn⟩
  · refine ⟨_, .batch hb hr (hclean hadv), .batch hb ?_⟩
    rw [hr.nchains]
    exact hn'
  · exact ⟨_, .batch hb hr (hclean hadv), .none⟩
  · exact ⟨_, .remove hr, .none⟩

theorem deferredSingleChain_phases {s : State} {slot : ℕ} (h : Valid hkey s.dircache)
    (ha : s.deferred.active = some slot) (grants : ℕ) (alloc : Bool) :
    ∃ s', ScanStep s s' ∧ FinishStep s' (deferredSingleChain grants alloc slot s).1 := by
  obtain ⟨hr, hclean⟩ := scanChain_spec h (singleStale s.deferred slot)
    (fun _ => true) grants (s.deferred.queue slot).chainIdx
  have hclean' := fun hadv e he hc hs hres => hclean hadv e he hc hs rfl hres
  simp only [deferredSingleChain]
  split_ifs with hv hn hadv hn'
  · exact ⟨s, .none, .closed ha (by simpa using hv)⟩
  · exact ⟨s, .none, .single alloc ha hn⟩
  · refine ⟨_, .single ha hr (hclean' hadv), .single alloc ha ?_⟩
    rw [hr.nchains, queue_setChainIdx, if_pos rfl]
    exact hn'
  · exact ⟨_, .single ha hr (hclean' hadv), .none⟩
  · exact ⟨_, .remove hr, .none⟩

theorem dircacheProcessDeferredChain_phases {s : State} (h : Valid hkey s.dircache)
    (hq : s.deferred.WF) (grants : ℕ) (alloc : Bool) :
    ∃ s', ScanStep { s with deferred := (deferredSelect s.deferred).1 } s' ∧
      FinishStep s' (dircacheProcessDeferredChain grants alloc s).1 := by
  have hs := selects_deferredSelect hq
  rw [dircacheProcessDeferredChain]
  generalize deferredSelect s.deferred = r at hs ⊢
  obtain ⟨d, sel⟩ := r
  cases sel with
  | idle => exact ⟨_, .none, .none⟩
  | batch => exact @deferredBatchChain_phases _ { s with deferred := d } h hs.batchActive grants
  | single slot =>
    exact @deferredSingleChain_phases _ { s with deferred := d } slot h hs.active grants alloc

end Phases

/-! ### The invariant -/

/-- The table is valid, its entries differ in volume or number, have ordinary numbers and open
volumes, and the queue is in order. -/
structure State.WF [ByteOrder] (s : State) : Prop where
  hash : Valid hkey s.dircache
  keys : ∀ a b, Holds hkey s.dircache a → Holds hkey s.dircache b →
    a.dVid = b.dVid → a.dDid = b.dDid → a = b
  number : ∀ e, Holds hkey s.dircache e → cnidStart ≤ htonl e.dDid
  volume : ∀ e, Holds hkey s.dircache e → s.getvolbyvid e.dVid = true
  queue : s.deferred.WF

section WF

variable [ByteOrder] {s s' : State}

theorem not_reserved (h : cnidStart ≤ htonl e.dDid) : e.reserved = false := by
  rw [← Bool.not_eq_true]
  intro hr
  simp only [Dir.reserved, Bool.or_eq_true, beq_iff_eq] at hr
  obtain (hr | hr) | hr := hr
  all_goals
    rw [hr] at h
    revert h
    simp only [htonl, cnidStart]
    cases ByteOrder.bigEndian
    · decide
    · decide

theorem State.WF.init (maxcount : ℕ) : (State.init maxcount).WF where
  hash := hashCreate_valid maxcount
  keys := fun a _ ha => absurd ha (not_holds_hashCreate maxcount a)
  number := fun e he => absurd he (not_holds_hashCreate maxcount e)
  volume := fun e he => absurd he (not_holds_hashCreate maxcount e)
  queue := Queue.WF.empty

/-- Entries go, the volumes of the others stay open, and the queue stays in order. -/
theorem State.WF.of_subset (h : s.WF) (hash : Valid hkey s'.dircache)
    (hh : ∀ e, Holds hkey s'.dircache e → Holds hkey s.dircache e ∧ s'.getvolbyvid e.dVid = true)
    (hq : s'.deferred.WF) : s'.WF where
  hash := hash
  keys := fun a b ha hb => h.keys a b (hh a ha).1 (hh b hb).1
  number := fun e he => h.number e (hh e he).1
  volume := fun e he => (hh e he).2
  queue := hq

theorem State.WF.of_removes (h : s.WF) (hr : Removes s.dircache s'.dircache)
    (hv : s'.vols = s.vols) (hq : s'.deferred.WF) : s'.WF := by
  apply h.of_subset hr.valid _ hq
  intro e he
  rw [State.getvolbyvid, hv]
  exact ⟨hr.holds e he, h.volume e (hr.holds e he)⟩

theorem State.WF.queue_only (h : s.WF) {d : Queue} (hq : d.WF) :
    ({ s with deferred := d } : State).WF := h.of_removes (.refl h.hash) rfl hq

theorem ScanStep.wf (h : s.WF) (hs : ScanStep s s') : s'.WF := by
  cases hs with
  | none => exact h
  | remove hr => exact h.of_removes hr rfl h.queue
  | batch hb hr => exact h.of_removes hr rfl h.queue.advanceBatch
  | single ha hr => exact h.of_removes hr rfl (h.queue.setChainIdx ha _)

theorem FinishStep.wf (h : s.WF) (hs : FinishStep s s') : s'.WF := by
  cases hs with
  | none => exact h
  | batch hb => exact h.queue_only (h.queue.retires (h.queue.retires_deferredBatchComplete hb).1)
  | closed ha =>
    apply h.queue_only (h.queue.retires (h.queue.retires_retireActive ha _).1)
    exact fun _ => .inl
  | single alloc ha =>
    exact h.queue_only (h.queue.retires (h.queue.retires_deferredCoverSet ha alloc).1)

omit [ByteOrder] in
theorem FinishStep.dircache (hs : FinishStep s s') : s'.dircache = s.dircache := by
  cases hs with
  | none | batch | closed | single => rfl

theorem State.WF.process (h : s.WF) (grants : ℕ) (alloc : Bool) :
    (dircacheProcessDeferredChain grants alloc s).1.WF := by
  obtain ⟨s', hscan, hfin⟩ := dircacheProcessDeferredChain_phases h.hash h.queue grants alloc
  have h1 := h.queue_only ((selects_deferredSelect h.queue).wf h.queue)
  exact hfin.wf (hscan.wf h1)

/-! ### The events of the main thread -/

omit [ByteOrder] in
theorem hkey_congr {a b : Dir} (hv : a.dVid = b.dVid) (hd : a.dDid = b.dDid) : hkey a = hkey b := by
  rw [hkey, hkey, hashVidDid, hashVidDid, hv, hd]

/-- An insertion that found no entry of the same volume and number. -/
theorem State.WF.insert (h : s.WF) (hvol : s.getvolbyvid dir.dVid = true)
    (hnum : cnidStart ≤ htonl dir.dDid)
    (hlookup : hashLookup hkey sameVidDid s.dircache dir = none) (realloc : Bool) :
    ({ s with dircache := hashInsert hkey realloc s.dircache dir } : State).WF := by
  have hnew : ∀ a, Holds hkey s.dircache a → a.dVid = dir.dVid → a.dDid = dir.dDid → False := by
    intro a ha hv hd
    have := same_eq_false_of_hashLookup hlookup ha (hkey_congr hv hd)
    rw [sameVidDid, hv, hd, beq_self_eq_true, beq_self_eq_true] at this
    cases this
  obtain ⟨hvalid, hh⟩ := h.hash.hashInsert_holds (fun hc => hnew dir hc rfl rfl) realloc
  refine ⟨hvalid, ?_, ?_, ?_, h.queue⟩
  · intro a b ha hb hv hd
    obtain rfl | ha' := (hh a).mp ha
    · obtain rfl | hb' := (hh b).mp hb
      · rfl
      · exact (hnew b hb' hv.symm hd.symm).elim
    · obtain rfl | hb' := (hh b).mp hb
      · exact (hnew a ha' hv hd).elim
      · exact h.keys a b ha' hb' hv hd
  · intro e he
    obtain rfl | he := (hh e).mp he
    · exact hnum
    · exact h.number e he
  · intro e he
    obtain rfl | he := (hh e).mp he
    · exact hvol
    · exact h.volume e he

omit [ByteOrder] in
/-- A change of path replaces an entry at its position. -/
theorem dirModifyPath_holds {t : Table Dir} (h : Valid hkey t)
    (hdir : Holds hkey t dir) (path : Option (List UInt8))
    (hkeys : Holds hkey t { dir with dFullpath := path } → { dir with dFullpath := path } = dir) :
    Valid hkey (dirModifyPath t dir path) ∧
      ∀ e, Holds hkey (dirModifyPath t dir path) e ↔
        e = { dir with dFullpath := path } ∨ e ≠ dir ∧ Holds hkey t e := by
  have hchain : chainOf hkey t { dir with dFullpath := path } = chainOf hkey t dir :=
    chainOf_congr (hkey_congr rfl rfl)
  have hmem : ∀ e, e ∈ t.table (chainOf hkey t dir) ↔
      Holds hkey t e ∧ chainOf hkey t e = chainOf hkey t dir :=
    fun e => h.mem_table_iff (h.chainOf_lt dir)
  apply h.setChain_holds t.nodecount
  · apply Nodup.map_on _ (h.nodup _ (h.chainOf_lt dir))
    intro a ha b hb hab
    split_ifs at hab with h1 h2 h3
    · rw [h1, h2]
    · rw [← hab, hmem] at hb
      exact absurd (hab.symm.trans (hkeys hb.1)) h2
    · rw [hab, hmem] at ha
      exact absurd (hab.trans (hkeys ha.1)) h1
    · exact hab
  · intro e
    rw [List.mem_map]
    constructor
    · rintro ⟨a, ha, rfl⟩
      split_ifs with h1
      · exact ⟨.inl rfl, hchain⟩
      · exact ⟨.inr ⟨h1, ((hmem a).mp ha).1⟩, ((hmem a).mp ha).2⟩
    · rintro ⟨rfl | ⟨hne, he⟩, hc⟩
      · exact ⟨dir, hdir, if_pos rfl⟩
      · exact ⟨e, (hmem e).mpr ⟨he, hc⟩, if_neg hne⟩
  · intro e hc
    constructor
    · rintro (rfl | ⟨_, he⟩)
      · exact absurd hchain hc
      · exact he
    · intro he
      refine .inr ⟨?_, he⟩
      rintro rfl
      exact hc rfl

theorem State.WF.modifyPath (h : s.WF) (hdir : Holds hkey s.dircache dir)
    (path : Option (List UInt8)) :
    ({ s with dircache := dirModifyPath s.dircache dir path } : State).WF := by
  obtain ⟨hvalid, hh⟩ := dirModifyPath_holds h.hash hdir path fun hc =>
    h.keys _ _ hc hdir rfl rfl
  refine ⟨hvalid, ?_, ?_, ?_, h.queue⟩
  · intro a b ha hb hv hd
    obtain rfl | ⟨hna, ha⟩ := (hh a).mp ha
    · obtain rfl | ⟨hnb, hb⟩ := (hh b).mp hb
      · rfl
      · exact absurd (h.keys b dir hb hdir hv.symm hd.symm) hnb
    · obtain rfl | ⟨hnb, hb⟩ := (hh b).mp hb
      · exact absurd (h.keys a dir ha hdir hv hd) hna
      · exact h.keys a b ha hb hv hd
  · intro e he
    obtain rfl | ⟨_, he⟩ := (hh e).mp he
    · exact h.number dir hdir
    · exact h.number e he
  · intro e he
    obtain rfl | ⟨_, he⟩ := (hh e).mp he
    · exact h.volume dir hdir
    · exact h.volume e he

omit [ByteOrder] in
theorem removes_dircacheRemoveChildren (h : Valid hkey s.dircache) (dir : Dir) :
    Removes s.dircache (dircacheRemoveChildren dir s).dircache ∧
      (dircacheRemoveChildren dir s).vols = s.vols ∧
      (dircacheRemoveChildren dir s).deferred = s.deferred := by
  rw [dircacheRemoveChildren]
  split
  · exact ⟨.refl h, rfl, rfl⟩
  · split_ifs
    · exact ⟨.refl h, rfl, rfl⟩
    · exact ⟨removes_hashScanRemove h _, rfl, rfl⟩

omit [ByteOrder] in
/-- What a deferral can do: nothing, purge at once, or enqueue. -/
theorem dircacheRemoveChildrenDefer_cases (vid : UInt16) (dir : Dir) (active alloc : Bool)
    (s : State) : dircacheRemoveChildrenDefer vid dir active alloc s = s ∨
      dircacheRemoveChildrenDefer vid dir active alloc s = dircacheRemoveChildren dir s ∨
      ∃ path, dir.dFullpath = some path ∧ s.deferred.count < maxDeferredCleanups ∧
        dircacheRemoveChildrenDefer vid dir active alloc s =
          { s with deferred := deferredEnqueue s.deferred vid path } := by
  rw [dircacheRemoveChildrenDefer]
  split
  · exact .inl rfl
  · rename_i path hpath
    split_ifs with hf hc
    · exact .inl rfl
    · exact .inr (.inl rfl)
    · refine .inr (.inr ⟨path, hpath, ?_, rfl⟩)
      simp only [Bool.or_eq_true, decide_eq_true_eq] at hc
      omega

theorem State.WF.defer (h : s.WF) (vid : UInt16) (dir : Dir) (active alloc : Bool) :
    (dircacheRemoveChildrenDefer vid dir active alloc s).WF := by
  obtain e | e | ⟨path, _, hc, e⟩ := dircacheRemoveChildrenDefer_cases vid dir active alloc s
  · rw [e]
    exact h
  · rw [e]
    obtain ⟨hr, hv, hq⟩ := removes_dircacheRemoveChildren h.hash dir
    apply h.of_removes hr hv
    rw [hq]
    exact h.queue
  · rw [e]
    exact h.queue_only (h.queue.enqueue hc vid path)

/-! ### Flushing and closing a volume -/

/-- A flush has gone through the slots `l`: it unlinked entries, killed slots, touched no job of
another volume, and left none of the volume in these slots. -/
structure Flushes (vid : UInt16) (l : List ℕ) (s s' : State) : Prop where
  removes : Removes s.dircache s'.dircache
  vols : s'.vols = s.vols
  kills : Kills s.deferred s'.deferred
  other : ∀ i, (s.deferred.queue i).vVid ≠ vid → s'.deferred.queue i = s.deferred.queue i
  own : ∀ i ∈ l, (s.deferred.queue i).vVid = vid → (s'.deferred.queue i).parentPath = none

theorem flushes_flushSlot (h : Valid hkey s.dircache) (vid : UInt16) (j : ℕ) :
    Flushes vid [j] s (flushSlot vid s j) := by
  have hother : ∀ i, (s.deferred.queue j).vVid = vid → (s.deferred.queue i).vVid ≠ vid →
      (deferredJobKill s.deferred j).queue i = s.deferred.queue i := by
    intro i hv hi
    apply queue_deferredJobKill_of_ne
    rintro rfl
    exact hi hv
  have hown : ∀ i ∈ [j], ((deferredJobKill s.deferred j).queue i).parentPath = none := by
    intro i hi
    rw [mem_singleton.mp hi]
    exact parentPath_deferredJobKill j
  simp only [flushSlot]
  split_ifs with hv hvol
  · exact ⟨removes_hashScanRemove h _, rfl, kills_deferredJobKill j,
      fun i hi => hother i hv hi, fun i hi _ => hown i hi⟩
  · exact ⟨.refl h, rfl, kills_deferredJobKill j,
      fun i hi => hother i hv hi, fun i hi _ => hown i hi⟩
  · refine ⟨.refl h, rfl, .refl, fun _ _ => rfl, fun i hi hi' => ?_⟩
    rw [mem_singleton.mp hi] at hi'
    exact absurd hi' hv

omit [ByteOrder] in
theorem Flushes.cons {vid : UInt16} {j : ℕ} {l : List ℕ} {s s' s'' : State}
    (h : Flushes vid [j] s s') (h' : Flushes vid l s' s'') : Flushes vid (j :: l) s s'' where
  removes := h.removes.trans h'.removes
  vols := h'.vols.trans h.vols
  kills := h.kills.trans h'.kills
  other := by
    intro i hi
    have e := h.other i hi
    rw [← e] at hi
    rw [h'.other i hi, e]
  own := by
    intro i hi hv
    have hdead : (s'.deferred.queue i).parentPath = none →
        (s''.deferred.queue i).parentPath = none := by
      intro hd
      obtain e | e := h'.kills.slot i
      · rw [e]
        exact hd
      · exact e
    obtain rfl | hi := mem_cons.mp hi
    · exact hdead (h.own i (mem_singleton_self i) hv)
    · obtain e | e := h.kills.slot i
      · rw [← e] at hv
        exact h'.own i hi hv
      · exact hdead e

theorem flushes_foldl (vid : UInt16) : ∀ (l : List ℕ) {s : State}, Valid hkey s.dircache →
    Flushes vid l s (l.foldl (flushSlot vid) s)
  | [], _, h => ⟨.refl h, rfl, .refl, fun _ _ => rfl, fun _ hi => by cases hi⟩
  | j :: l, _, h => by
      have hj := flushes_flushSlot h vid j
      exact hj.cons (flushes_foldl vid l hj.removes.valid)

/-- A flush unlinks entries and retires the jobs of the volume, no others. -/
theorem dircacheFlushDeferredForVol_spec (h : s.WF) (vid : UInt16) :
    Removes s.dircache (dircacheFlushDeferredForVol vid s).dircache ∧
      (dircacheFlushDeferredForVol vid s).vols = s.vols ∧
      Retires s.deferred (dircacheFlushDeferredForVol vid s).deferred ∧
      (∀ i ∈ s.deferred.live, (s.deferred.queue i).vVid ≠ vid →
        i ∈ (dircacheFlushDeferredForVol vid s).deferred.live) ∧
      ∀ c, (dircacheFlushDeferredForVol vid s).deferred.cover = some c →
        s.deferred.cover = some c := by
  have hf := @flushes_foldl _ vid s.deferred.slots { s with deferred := s.deferred.dropScans vid }
    h.hash
  generalize hs' : s.deferred.slots.foldl (flushSlot vid)
    { s with deferred := s.deferred.dropScans vid } = s' at hf
  have hr : s'.deferred.Ringed := hf.kills.ringed (h.queue.ringed.congr rfl rfl rfl)
  have hc : Compacts _ (deferredCompactHead _) := (compacts_compactHeadLoop _ hr rfl).1
  have hstay : ∀ i ∈ s.deferred.live, (s.deferred.queue i).vVid ≠ vid → i ∈ s'.deferred.live :=
    fun i hi hv => hf.kills.live_of_queue_eq hi (hf.other i hv)
  have hgone : ∀ i ∈ s'.deferred.live, (s.deferred.queue i).vVid ≠ vid := by
    intro i hi hv
    have hslot := (Queue.mem_live.mp (hf.kills.mem_live hi).1).1
    exact ne_of_mem_live hi (hf.own i hslot hv) rfl
  have hcover : ∀ c, s'.deferred.cover = some c → s.deferred.cover = some c := by
    intro c hcov
    rw [hf.kills.scan.cover] at hcov
    exact (Option.filter_eq_some_iff.mp hcov).1
  simp only [dircacheFlushDeferredForVol, hs']
  refine ⟨hf.removes, hf.vols, Retires.compacts ?_ hc, ?_, ?_⟩
  · refine ⟨hr, fun i hi => hf.kills.mem_live hi, .inr ⟨hf.kills.depthMin, hf.kills.depthMax⟩,
      hf.kills.scan.seq, hf.kills.scan.started, ?_, ?_, ?_, ?_⟩
    · intro a ha
      by_cases hv : (s.deferred.queue a).vVid = vid
      · exact .inr fun hl => hgone a hl hv
      · refine .inl ⟨?_, hstay a (h.queue.active a ha).1 hv⟩
        rw [hf.kills.scan.active]
        show s.deferred.active.filter _ = some a
        rw [ha, Option.filter_some, if_pos (by simpa using hv)]
    · intro a ha
      rw [hf.kills.scan.active] at ha
      obtain ⟨ha', hv⟩ := Option.filter_eq_some_iff.mp ha
      exact ⟨ha', hstay a (h.queue.active a ha').1 (by simpa using hv)⟩
    · intro hb
      rw [hf.kills.scan.batchActive] at hb
      cases hb
    · exact fun c hcov => .inl (hcover c hcov)
  · intro i hi hv
    rw [hc.live]
    exact hstay i hi hv
  · intro c hcov
    rw [hc.scan.cover] at hcov
    exact hcover c hcov

/-- Closing a volume unlinks its entries; with a flush it also retires its jobs. -/
theorem closevol_spec (h : s.WF) (vid : UInt16) (flush : Bool) :
    ∃ s', Removes s.dircache s'.dircache ∧ s'.vols = s.vols ∧ Retires s.deferred s'.deferred ∧
      (∀ i ∈ s.deferred.live, (s.deferred.queue i).vVid ≠ vid → i ∈ s'.deferred.live) ∧
      (∀ c, s'.deferred.cover = some c → s.deferred.cover = some c) ∧
      closevol vid (if flush then dircacheFlushDeferredForVol vid { s with curdir := none }
        else { s with curdir := none }) = closevol vid s' := by
  have h' : ({ s with curdir := none } : State).WF := { h with }
  cases flush with
  | true =>
    obtain ⟨hr, hv, hq, hl, hc⟩ := dircacheFlushDeferredForVol_spec h' vid
    exact ⟨_, hr, hv, hq, hl, hc, rfl⟩
  | false =>
    exact ⟨{ s with curdir := none }, .refl h.hash, rfl, h.queue.retires_self,
      fun _ hi _ => hi, fun _ => id, rfl⟩

theorem State.WF.closevol (h : s.WF) (vid : UInt16) : (closevol vid s).WF := by
  obtain ⟨hvalid, hh⟩ := h.hash.hashScanRemove_holds fun e => e.dVid == vid
  refine h.of_subset hvalid (fun e he => ?_) h.queue
  obtain ⟨hne, he⟩ := (hh e).mp he
  refine ⟨he, ?_⟩
  have := h.volume e he
  simp only [State.getvolbyvid, contains_iff_mem] at this
  simp only [State.getvolbyvid, Deferred.closevol, contains_iff_mem, mem_filter]
  exact ⟨this, by simpa using hne⟩

/-! ### Whole runs -/

theorem State.WF.step {ev : Event} (h : s.WF) (hs : step ev s = some s') : s'.WF := by
  cases stepTo_of_step hs with
  | insert realloc hvol hnum hlookup => exact h.insert hvol hnum hlookup realloc
  | remove dir =>
    obtain ⟨hvalid, hh⟩ := h.hash.hashDelete_holds dir
    refine h.of_subset hvalid (fun e he => ?_) h.queue
    have he' := ((hh e).mp he).2
    exact ⟨he', h.volume e he'⟩
  | modifyPath path hheld => exact h.modifyPath hheld path
  | chdir | grant | revoke => exact { h with }
  | defer vid dir active alloc => exact h.defer vid dir active alloc
  | openvol =>
    refine { h with volume := fun e he => ?_ }
    have := h.volume e he
    simp only [State.getvolbyvid, contains_iff_mem] at this ⊢
    exact mem_cons_of_mem _ this
  | closevol vid flush =>
    obtain ⟨s₁, hr, hv, hq, _, _, e⟩ := closevol_spec h vid flush
    rw [e]
    exact (h.of_removes hr hv (h.queue.retires hq)).closevol vid
  | work grants alloc =>
    have h' := h.process grants alloc
    exact { h' with }

theorem Reachable.wf {maxcount : ℕ} (h : Reachable maxcount s) : s.WF := by
  induction h with
  | refl => exact State.WF.init maxcount
  | tail _ hs ih =>
    obtain ⟨ev, hs⟩ := hs
    exact ih.step hs

end WF

end Netatalk.Deferred
