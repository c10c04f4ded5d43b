import Netatalk.DeferredScan

/-! # Completeness of the deferred purges

A run in which an entry `Stays` never inserts the entry and never passes over it as the
current directory while scanning for it.  If its steps are also `Orderly`, then at the time a
job has been retired no entry below the path of the job is left that was cached when the job
was enqueued (`not_holds_of_retired`).

Without the condition on halving this fails.  Every halving that is due while the cursor has
passed the middle of the table ends the scan with the next call, whatever is left in the upper
half (`exists_lost_of_halving`), and a server can come to that point. -/

namespace Netatalk.Deferred

open Hash

variable {hi i lo : ℕ} {s : State} {x : Dir}

section Run

variable [ByteOrder]

/-! ### Loading the cache -/

/-- The path `/v/a`. -/
def purgedPath : List UInt8 := [47, 118, 47, 97]

def purgedFolder : Dir := ⟨8192, 1, 18, some purgedPath, false⟩

/-- An entry of that folder. -/
def lostEntry : Dir := ⟨0, 1, 17, some (purgedPath ++ [47, 120]), false⟩

/-- Entries elsewhere on the volume. -/
def otherEntry (i : ℕ) : Dir :=
  ⟨i + 1, 1, UInt32.ofNat (256 * (i + 1) + 17), some [47, 118, 47, 98], false⟩

/-- The worker rests, and the cache holds `lostEntry` and some of the other entries. -/
structure Loaded (lo hi : ℕ) (s : State) : Prop extends Resting s where
  reach : Reachable 8192 s
  vols : s.vols = [1]
  queue : s.deferred = Queue.empty
  maxcount : s.dircache.maxcount = 8192
  nodecount : s.dircache.nodecount = hi - lo + 1
  holds : ∀ x, Holds hkey s.dircache x ↔ x = lostEntry ∨ ∃ i, lo ≤ i ∧ i < hi ∧ x = otherEntry i

theorem cnidStart_le_otherEntry (i : ℕ) : cnidStart ≤ htonl (otherEntry i).dDid := by
  rw [htonl, UInt32.le_iff_toNat_le, otherEntry]
  split_ifs
  · rw [UInt32.toNat_ofNat']
    show 17 ≤ _
    omega
  · -- the low byte comes to lie on top
    refine le_trans ?_ Nat.right_le_or
    show 17 ≤ ((256 * (i + 1) + 17) % 4294967296) <<< 24 % 4294967296
    omega

omit [ByteOrder] in
theorem dDid_otherEntry_ne {j : ℕ} (hi : i < 4096) (hj : j < i) :
    (otherEntry j).dDid ≠ (otherEntry i).dDid := by
  intro h
  have := congrArg UInt32.toNat h
  simp only [otherEntry, UInt32.toNat_ofNat'] at this
  omega

omit [ByteOrder] in
theorem dDid_lostEntry_ne (hi : i < 4096) : lostEntry.dDid ≠ (otherEntry i).dDid := by
  intro h
  have : (17 : UInt32).toNat = _ := congrArg UInt32.toNat h
  simp only [otherEntry, UInt32.toNat_ofNat'] at this
  have h17 : (17 : UInt32).toNat = 17 := rfl
  omega

omit [ByteOrder] in
theorem not_isBelow_otherEntry (i : ℕ) : (otherEntry i).isBelow purgedPath = false := by
  show pathIsStrictChild [47, 118, 47, 98] purgedPath = false
  decide

/-- An insertion whose entry differs from the cached ones in number and address. -/
theorem step_insert_of_fresh (h : s.WF) {dir : Dir} (hwork : s.canWork = false)
    (hvol : s.getvolbyvid dir.dVid = true) (hnum : cnidStart ≤ htonl dir.dDid)
    (hfresh : ∀ x, Holds hkey s.dircache x → x.dDid ≠ dir.dDid ∧ x.addr ≠ dir.addr)
    (hmax : s.dircache.nodecount < s.dircache.maxcount) (realloc : Bool) :
    step (.insert dir realloc) s =
      some { s with dircache := hashInsert hkey realloc s.dircache dir } := by
  have hlookup : (hashLookup hkey sameVidDid s.dircache dir).isNone = true := by
    rw [Option.isNone_iff_eq_none, hashLookup, List.find?_eq_none]
    intro x hx hc
    rw [Bool.and_eq_true, sameVidDid, Bool.and_eq_true, beq_iff_eq, beq_iff_eq] at hc
    refine (hfresh x ?_).1 hc.2.1
    rw [Holds, chainOf_congr hc.1]
    exact hx
  have haddr : s.dircache.nodes.all (fun e => e.addr != dir.addr) = true := by
    rw [List.all_eq_true]
    intro x hx
    exact bne_iff_ne.mpr (hfresh x (h.hash.mem_nodes_iff.mp hx)).2
  rw [step, hwork, hvol, hlookup, haddr, decide_eq_true hnum, decide_eq_true hmax]
  rfl

theorem Loaded.getvolbyvid (h : Loaded lo hi s) : s.getvolbyvid 1 = true := by
  rw [State.getvolbyvid, h.vols]
  rfl

theorem exists_loaded_zero : ∃ s, Loaded 0 0 s ∧ s.dircache.nchains = 1024 := by
  have hinit : Reachable 8192 (State.init 8192) := .refl
  have hopen : Reachable 8192 { State.init 8192 with vols := [1] } := hinit.tail ⟨.openvol 1, rfl⟩
  have hnot : ∀ x, ¬Holds hkey (hashCreate 8192) x := not_holds_hashCreate 8192
  have hnum : cnidStart ≤ htonl lostEntry.dDid := by
    rw [htonl]
    cases ByteOrder.bigEndian
    · decide
    · decide
  have hstep := step_insert_of_fresh hopen.wf rfl rfl hnum (fun x hx => absurd hx (hnot x))
    (by decide) true
  obtain ⟨_, hh⟩ := hopen.wf.hash.hashInsert_holds (hnot lostEntry) true
  refine ⟨_, ⟨⟨rfl, rfl, rfl, rfl, rfl, rfl⟩, hopen.tail ⟨_, hstep⟩, rfl, rfl, ?_, ?_, ?_⟩, ?_⟩
  · exact maxcount_hashInsert true lostEntry
  · exact nodecount_hashInsert true lostEntry
  · intro x
    refine (hh x).trans (or_congr_right ⟨fun hx => absurd hx (hnot x), ?_⟩)
    rintro ⟨i, _, hi, _⟩
    exact absurd hi (Nat.not_lt_zero i)
  · exact nchains_hashInsert true lostEntry

/-! ### Completeness -/

/-- When a purge job is retired, every entry strictly below its path, on its volume, that was
cached when the job was enqueued, stayed cached and was not passed over as the current
directory has been removed, in every run with the two conditions of `Orderly`. -/
theorem not_holds_of_retired {maxcount : ℕ} {s₀ s₁ s₂ : State} {vid : UInt16} {dir : Dir}
    {active alloc : Bool} {path : List UInt8} {e : Dir} (reach : Reachable maxcount s₀)
    (enqueue : step (.defer vid dir active alloc) s₀ = some s₁)
    (queued : s₁.deferred.Pending s₀.deferred.seq) (hpath : dir.dFullpath = some path)
    (hne : path ≠ []) (below : e.isBelow path = true) (hvid : e.dVid = vid)
    (run : OrderlyRun s₀.deferred.seq e s₁ s₂)
    (retired : ¬s₂.deferred.Pending s₀.deferred.seq) : ¬Holds hkey s₂.dircache e := by
  have h₀ := reach.wf
  have hnew : ¬s₀.deferred.Pending s₀.deferred.seq := by
    rintro ⟨i, hi, hs⟩
    exact (h₀.queue.seq_lt i hi).ne hs
  cases stepTo_of_step enqueue
  -- only an enqueued job can be pending under the new number
  have ht : Tracked ⟨s₀.deferred.seq, path, vid⟩ e
      (chainOf hkey (dircacheRemoveChildrenDefer vid dir active alloc s₀).dircache e)
      (dircacheRemoveChildrenDefer vid dir active alloc s₀).deferred := by
    obtain e' | e' | ⟨path', hpath', hc, e'⟩ :=
      dircacheRemoveChildrenDefer_cases vid dir active alloc s₀
    · rw [e'] at queued
      exact absurd queued hnew
    · rw [e', (removes_dircacheRemoveChildren h₀.hash dir).2.2] at queued
      exact absurd queued hnew
    · cases hpath.symm.trans hpath'
      rw [e']
      exact tracked_deferredEnqueue h₀.queue hc vid path e _
  intro he
  obtain ⟨_, htr⟩ := OrderlyRun.tracked (h₀.defer vid dir active alloc) ⟨below, hne, hvid⟩ ht run
  obtain ⟨i, hi, hs, _⟩ := (htr he).job
  exact retired ⟨i, hi, hs⟩

end Run

/-- The purge of the folder above the only cached entry. -/
theorem not_holds_of_retired_lostEntry : letI : ByteOrder := ⟨false⟩
    ∃ s₀ s₁ s₂, Reachable 8192 s₀ ∧ Holds hkey s₀.dircache lostEntry ∧
      step (.defer 1 purgedFolder true true) s₀ = some s₁ ∧
      s₁.deferred.Pending s₀.deferred.seq ∧
      OrderlyRun s₀.deferred.seq lostEntry s₁ s₂ ∧ ¬s₂.deferred.Pending s₀.deferred.seq ∧
      ¬Holds hkey s₂.dircache lostEntry := by
  let _ : ByteOrder := ⟨false⟩
  obtain ⟨s₀, h, _⟩ := exists_loaded_zero
  have hw := h.reach.wf
  have hdefer := @Resting.step_defer _ s₀ 1 purgedFolder _ h.toResting rfl rfl
  have hpending := @pending_deferredEnqueue 1 purgedPath s₀.deferred hw.queue.ringed
    h.toResting.count_lt
  obtain ⟨s₂, hrun, hretired⟩ := @Resting.exists_retired _ s₀ 1 purgedPath h.toResting hw
    h.getvolbyvid lostEntry
  refine ⟨s₀, _, s₂, h.reach, (h.holds _).mpr (.inl rfl), hdefer, hpending, hrun, hretired, ?_⟩
  exact not_holds_of_retired h.reach hdefer hpending rfl (by decide) (by decide) rfl hrun hretired

/-! ### Halving under a scan -/

section Halving

variable [ByteOrder]

/-- A removal that halves the table while the cursor is in its upper half or at its end: the
next call retires the job, with every other entry still cached. -/
theorem Scanning.exists_lost_of_halving {slot : ℕ} (h : Scanning slot s) (hw : s.WF)
    {e : Dir} (he : Holds hkey s.dircache e) (hx : Holds hkey s.dircache x) (hne : e ≠ x)
    (hlow : s.dircache.nodecount ≤ s.dircache.lowmark) (hbig : initSize < s.dircache.nodecount)
    (hmid : s.dircache.nchains / 2 ≤ (s.deferred.queue slot).chainIdx) :
    ∃ s', StayingRun e s s' ∧ ¬s'.deferred.Pending (s.deferred.queue slot).seq ∧
      Holds hkey s'.dircache e := by
  have hsize : (hashDelete hkey s.dircache x).nchains ≤ (s.deferred.queue slot).chainIdx := by
    rw [nchains_hashDelete, if_pos]
    · exact hmid
    · rw [decide_eq_true hlow, decide_eq_true hbig]
      rfl
  have he' : Holds hkey (hashDelete hkey s.dircache x) e :=
    ((hw.hash.hashDelete_holds x).2 e).mpr ⟨hne, he⟩
  have hrevoke : step .revoke s = some { s with canWork := false } := by
    rw [step, h.canWork]
    rfl
  have hremove : step (.remove x) { s with canWork := false } =
      some { s with dircache := hashDelete hkey s.dircache x, canWork := false } := by
    rw [step, decide_eq_true (show Holds hkey s.dircache x from hx), h.curdir]
    rfl
  have hgrant : step .grant
      { s with dircache := hashDelete hkey s.dircache x, canWork := false } =
      some { s with dircache := hashDelete hkey s.dircache x } := by
    rw [h.canWork]
    rfl
  have hretire := (h.removes (hashDelete hkey s.dircache x)).step_retire hsize
  have hrun : StayingRun e s { s with dircache := hashDelete hkey s.dircache x } := by
    refine .tail (.tail (.single ⟨_, stays_of_not_isWork hrevoke id rfl⟩)
      ⟨_, stays_of_not_isWork hremove (fun _ => he) rfl⟩) ?_
    exact ⟨_, stays_of_not_isWork hgrant id rfl⟩
  refine ⟨_, hrun.tail ⟨_, stays_of_removes hretire ?_ h.curdir⟩,
    hw.queue.not_pending_retireActive h.active true, he'⟩
  exact .refl (hw.hash.hashDelete_holds x).1

/-- The number of chains of a table that has only grown. -/
def grownTo (nodecount : ℕ) : ℕ :=
  if nodecount ≤ 2048 then 1024 else if nodecount ≤ 4096 then 2048 else 4096

omit [ByteOrder] in
theorem grownTo_succ {c : ℕ} (hc : c ≤ 4096) :
    grownTo (c + 1) = if grownTo c * 2 ≤ c then grownTo c * 2 else grownTo c := by
  simp only [grownTo]
  split_ifs
  all_goals omega

theorem Loaded.insert {n : ℕ} (h : Loaded 0 n s) (hn : n < 4096)
    (hsize : s.dircache.nchains = grownTo s.dircache.nodecount) :
    ∃ s', Loaded 0 (n + 1) s' ∧ s'.dircache.nchains = grownTo s'.dircache.nodecount := by
  have hw := h.reach.wf
  have hcount := h.nodecount
  have hvol : s.getvolbyvid (otherEntry n).dVid = true := h.getvolbyvid
  have hfresh : ∀ x, Holds hkey s.dircache x →
      x.dDid ≠ (otherEntry n).dDid ∧ x.addr ≠ (otherEntry n).addr := by
    intro x hx
    obtain rfl | ⟨i, _, hi, rfl⟩ := (h.holds x).mp hx
    · exact ⟨dDid_lostEntry_ne hn, (Nat.succ_ne_zero n).symm⟩
    · exact ⟨dDid_otherEntry_ne hn hi, fun e => hi.ne (Nat.succ.inj e)⟩
  have hmax : s.dircache.nodecount < s.dircache.maxcount := by
    rw [h.maxcount]
    omega
  have hstep := step_insert_of_fresh hw h.canWork hvol (cnidStart_le_otherEntry n) hfresh hmax true
  obtain ⟨_, hh⟩ := hw.hash.hashInsert_holds (fun hc => (hfresh _ hc).1 rfl) true
  refine ⟨_, ⟨?_, h.reach.tail ⟨_, hstep⟩, h.vols, h.queue, ?_, ?_, ?_⟩, ?_⟩
  · exact { h with }
  · rw [maxcount_hashInsert]
    exact h.maxcount
  · rw [nodecount_hashInsert]
    omega
  · intro x
    rw [hh, h.holds]
    constructor
    · rintro (rfl | rfl | ⟨i, _, hi, rfl⟩)
      · exact .inr ⟨n, Nat.zero_le n, Nat.lt_succ_self n, rfl⟩
      · exact .inl rfl
      · exact .inr ⟨i, Nat.zero_le i, by omega, rfl⟩
    · rintro (rfl | ⟨i, _, hi, rfl⟩)
      · exact .inr (.inl rfl)
      · obtain rfl | hlt : i = n ∨ i < n := by omega
        · exact .inl rfl
        · exact .inr (.inr ⟨i, Nat.zero_le i, hlt, rfl⟩)
  · rw [nchains_hashInsert, nodecount_hashInsert, hw.hash.highmark, hsize, Bool.and_true]
    rw [grownTo_succ (by omega)]
    simp only [decide_eq_true_eq]

theorem Loaded.remove (h : Loaded lo hi s) (hlt : lo < hi)
    (hhi : hi ≤ 4096) (hmany : s.dircache.lowmark < s.dircache.nodecount) :
    ∃ s', Loaded (lo + 1) hi s' ∧ s'.dircache.nchains = s.dircache.nchains := by
  have hw := h.reach.wf
  have hcount := h.nodecount
  have hx : Holds hkey s.dircache (otherEntry lo) :=
    (h.holds _).mpr (.inr ⟨lo, le_refl lo, hlt, rfl⟩)
  have hstep : step (.remove (otherEntry lo)) s =
      some { s with dircache := hashDelete hkey s.dircache (otherEntry lo) } := by
    rw [step, decide_eq_true hx, h.canWork, h.curdir]
    rfl
  obtain ⟨_, hh⟩ := hw.hash.hashDelete_holds (otherEntry lo)
  refine ⟨_, ⟨?_, h.reach.tail ⟨_, hstep⟩, h.vols, h.queue, ?_, ?_, ?_⟩, ?_⟩
  · exact { h with }
  · rw [maxcount_hashDelete]
    exact h.maxcount
  · rw [nodecount_hashDelete]
    omega
  · intro x
    rw [hh, h.holds]
    constructor
    · rintro ⟨hne, rfl | ⟨i, h1, h2, rfl⟩⟩
      · exact .inl rfl
      · refine .inr ⟨i, lt_of_le_of_ne h1 ?_, h2, rfl⟩
        rintro rfl
        exact hne rfl
    · rintro (rfl | ⟨i, h1, h2, rfl⟩)
      · exact ⟨fun e => dDid_lostEntry_ne (by omega) (congrArg Dir.dDid e), .inl rfl⟩
      · refine ⟨fun e => ?_, .inr ⟨i, by omega, h2, rfl⟩⟩
        exact dDid_otherEntry_ne (by omega) h1 (congrArg Dir.dDid e).symm
  · rw [nchains_hashDelete, if_neg]
    rw [Bool.and_eq_true, decide_eq_true_eq]
    omega

theorem exists_loaded_large : ∃ s, Loaded 2049 4096 s ∧ s.dircache.nchains = 4096 := by
  have hgrow : ∀ n ≤ 4096, ∃ s, Loaded 0 n s ∧
      s.dircache.nchains = grownTo s.dircache.nodecount := by
    intro n hn
    induction n with
    | zero =>
      obtain ⟨s, h, hsize⟩ := exists_loaded_zero
      refine ⟨s, h, ?_⟩
      rw [hsize, h.nodecount]
      rfl
    | succ n ih =>
      obtain ⟨s, h, hsize⟩ := ih (by omega)
      exact h.insert (by omega) hsize
  have hdrop : ∀ k ≤ 2049, ∃ s, Loaded k 4096 s ∧ s.dircache.nchains = 4096 := by
    intro k hk
    induction k with
    | zero =>
      obtain ⟨s, h, hsize⟩ := hgrow 4096 le_rfl
      refine ⟨s, h, ?_⟩
      rw [hsize, h.nodecount]
      rfl
    | succ k ih =>
      obtain ⟨s, h, hsize⟩ := ih (by omega)
      have hlow := h.reach.wf.hash.lowmark
      have hcount := h.nodecount
      obtain ⟨s', h', hsize'⟩ := h.remove (by omega) le_rfl (by omega)
      exact ⟨s', h', hsize'.trans hsize⟩
  exact hdrop 2049 le_rfl

/-- The lower half of that cache has nothing to purge. -/
theorem Loaded.clean (h : Loaded 2049 4096 s) (hsize : s.dircache.nchains = 4096) (hi : i < 2048)
    (hx : x ∈ s.dircache.table i) :
    x.isBelow purgedPath = false := by
  have hhash := h.reach.wf.hash
  obtain ⟨hx, hchain⟩ := (hhash.mem_table_iff (by omega)).mp hx
  obtain rfl | ⟨j, _, _, rfl⟩ := (h.holds x).mp hx
  · have hpos : hkey lostEntry % 4096 = 2109 := by decide
    rw [hhash.chainOf_eq_mod, hsize] at hchain
    omega
  · exact not_isBelow_otherEntry j

theorem exists_missed : ∃ s₀ s₁ s₂, Reachable 8192 s₀ ∧ Holds hkey s₀.dircache lostEntry ∧
    step (.defer 1 purgedFolder true true) s₀ = some s₁ ∧
    s₁.deferred.Pending s₀.deferred.seq ∧ StayingRun lostEntry s₁ s₂ ∧
    ¬s₂.deferred.Pending s₀.deferred.seq ∧ Holds hkey s₂.dircache lostEntry := by
  obtain ⟨s₀, h, hsize⟩ := exists_loaded_large
  have hw := h.reach.wf
  have hrest := h.toResting
  have hdefer := @Resting.step_defer _ s₀ 1 purgedFolder _ hrest rfl rfl
  have hpending := @pending_deferredEnqueue 1 purgedPath s₀.deferred hw.queue.ringed hrest.count_lt
  have hlost : Holds hkey s₀.dircache lostEntry := (h.holds _).mpr (.inl rfl)
  have hscan := @Resting.scanning_takeUp s₀ 1 purgedPath hrest h.getvolbyvid
  have hwT := @Resting.wf_takeUp _ s₀ 1 purgedPath hrest hw
  -- the scan passes the lower half, then a removal halves the table
  have hrun := hrest.run_of_clean hw h.getvolbyvid lostEntry (n := 2047) (by omega)
    fun i hi x hx => h.clean hsize (by omega) hx
  have hcount := h.nodecount
  have hlow := hw.hash.lowmark
  obtain ⟨s₂, hlast, hretired, hkept⟩ := (hscan.atChain 2048).exists_lost_of_halving
    (hscan.wf_atChain hwT 2048) hlost
    ((h.holds (otherEntry 2049)).mpr (.inr ⟨2049, by omega, by omega, rfl⟩))
    (fun e => dDid_lostEntry_ne (by omega) (congrArg Dir.dDid e))
    (show s₀.dircache.nodecount ≤ s₀.dircache.lowmark by omega)
    (show initSize < s₀.dircache.nodecount by rw [initSize]; omega)
    (by rw [queue_atChain]; show s₀.dircache.nchains / 2 ≤ 2048; omega)
  rw [queue_atChain, queue_takeUp] at hretired
  exact ⟨s₀, _, s₂, h.reach, hlost, hdefer, hpending, hrun.trans hlast, hretired, hkept⟩

end Halving

/-- An entry below the purged folder survives: the folder is deferred in a table with 4096
chains, the scan has passed the first 2048 of them, and a removal halves the table. -/
theorem purge_misses_lostEntry : letI : ByteOrder := ⟨false⟩
    ∃ s₀ s₁ s₂, Reachable 8192 s₀ ∧ Holds hkey s₀.dircache lostEntry ∧
      step (.defer 1 purgedFolder true true) s₀ = some s₁ ∧
      s₁.deferred.Pending s₀.deferred.seq ∧
      purgedFolder.dFullpath.any (lostEntry.isBelow ·) = true ∧ lostEntry.dVid = 1 ∧
      StayingRun lostEntry s₁ s₂ ∧ ¬s₂.deferred.Pending s₀.deferred.seq ∧
      Holds hkey s₂.dircache lostEntry := by
  let _ : ByteOrder := ⟨false⟩
  obtain ⟨s₀, s₁, s₂, hreach, h₀, hdefer, hpending, hrun, hretired, h₂⟩ := exists_missed
  exact ⟨s₀, s₁, s₂, hreach, h₀, hdefer, hpending, by decide, rfl, hrun, hretired, h₂⟩

end Netatalk.Deferred
