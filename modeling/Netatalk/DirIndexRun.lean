import Netatalk.DirIndexModify
import Netatalk.ArcCacheVerify

/-! # The indexes of the directory cache over whole runs

In both modes, every run in which `dircache_add` is given no entry with the ghost flag set keeps
the tables, the queues, the flags and the counters in agreement
(`index_consistent_without_ghost_adds`).  The LRU mode moreover stays within the configured size
and always finds entries to evict (`lru_bounded`).

The condition is needed.  `dircache_remove` takes a ghost out of its list but leaves
`DIRF_ARC_GHOST` on, and `arc_case_iv_insert` does not clear it.  So a search that finds a ghost, by
its validation learns of another inode at the path and moves the entry to another DID puts a
flagged entry into T1, and its promotion takes it to T2 (`rekeyed_ghost_breaks_index`). -/

namespace Netatalk.DirIndex

open Dircache

/-! ### The invariant over a run -/

variable {enabled : Bool} {maxsize : ℕ} {s s' : Cache} {x : Ptr}

theorem dircacheAdd_did {d : Dir} (he : dircacheAdd x d s = some s') : d.did ≠ cnidInvalid := by
  unfold dircacheAdd at he
  by_cases hd : 2 ≤ d.pdid ∧ cnidStart ≤ d.did ∧ d.vid ≠ 0
  · have := hd.2.1
    unfold cnidStart at this
    unfold cnidInvalid
    omega
  · rw [if_neg hd] at he
    cases he

theorem exec_good (h : Good s) {op : Op} (hl : op.Legal s) (hg : ¬ op.AddsGhost s)
    (he : exec s op = some s') : Good s' := by
  cases op with
  | dirNew =>
    cases he
    exact h.setDir hl (.inr rfl) fun _ => ⟨rfl, rfl⟩
  | add =>
    have hd := dircacheAdd_did he
    exact (dircacheAdd_good h hl (h.loose hl hd) (Bool.eq_false_iff.mpr hg) he).1
  | search =>
    cases he
    exact searchHit_good h hl
  | promote =>
    cases he
    exact dircachePromote_good h (.inl hl)
  | remove x =>
    cases he
    exact (dircacheRemove_removed h x).good
  | dirRemove x =>
    cases he
    exact dirRemove_good h x
  | modify => exact dirModify_good h hl hg he
  | chdir x =>
    cases he
    exact h.setCurdir x

theorem Reachable.good (hc : 2 ≤ maxsize)
    (hr : Reachable enabled maxsize (fun s op => ¬ op.AddsGhost s) s) : Good s := by
  induction hr with
  | init => exact dircacheInit_good enabled hc
  | step op _ hl hg he ih => exact exec_good ih hl hg he

theorem Reachable.mono {ok ok' : Cache → Op → Prop} (hok : ∀ s op, ok s op → ok' s op)
    (hr : Reachable enabled maxsize ok s) : Reachable enabled maxsize ok' s := by
  induction hr with
  | init => exact .init
  | step op _ hl ho he ih => exact .step op ih hl (hok _ op ho) he

theorem Good.indexConsistent (h : Good s) : IndexConsistent s := by
  have ht := h.tables
  have did : ∀ x ∈ s.arc.dircache, ∀ y ∈ s.arc.dircache, (s.arc.dir x).vid = (s.arc.dir y).vid →
      (s.arc.dir x).did = (s.arc.dir y).did → x = y := fun x hx y hy hv hd =>
    ht.did hx hy (by simp [didKey, hv, hd])
  have name : ∀ x ∈ s.arc.indexDidname, ∀ y ∈ s.arc.indexDidname,
      (s.arc.dir x).vid = (s.arc.dir y).vid → (s.arc.dir x).pdid = (s.arc.dir y).pdid →
      (s.arc.dir x).uName = (s.arc.dir y).uName → x = y := fun x hx y hy hv hp hu =>
    ht.name ((ht.same x).mpr hx) ((ht.same y).mpr hy) (by simp [nameKey, hv, hp, hu])
  cases h with
  | @arc a inv whole =>
    have hc := inv.consistent
    refine ⟨ht.nodupDircache, ht.nodupDidname, ht.same, did, name, ?_, ?_, ?_, ?_, ht.counted⟩
    · intro l
      cases l with
      | none => exact List.nodup_nil
      | some l => exact hc.nodup l
    · intro l x
      cases l with
      | none =>
        refine iff_of_false List.not_mem_nil ?_
        rintro ⟨hx, hl⟩
        obtain ⟨l, hxl⟩ := (hc.dircache x).mp hx
        exact absurd ((hc.listed l x hxl).symm.trans hl) (by simp)
      | some l =>
        exact ⟨fun hx => ⟨(hc.dircache x).mpr ⟨l, hx⟩, hc.listed l x hx⟩,
          fun hx => hc.mem_of_arcList hx.1 hx.2⟩
    · intro x hx
      refine ⟨fun hf => ?_, hc.ghost x⟩
      obtain ⟨l, hl⟩ := (hc.dircache x).mp hx
      cases l with
      | t1 => cases hf.symm.trans (whole.live x (.inl hl))
      | t2 => cases hf.symm.trans (whole.live x (.inr hl))
      | b1 => exact .inl hl
      | b2 => exact .inr hl
    · intro l
      cases l with
      | none => rfl
      | some l => exact hc.size l
  | @lru q n a lru =>
    refine ⟨ht.nodupDircache, ht.nodupDidname, ht.same, did, name, ?_, ?_, ?_, ?_, ht.counted⟩
    · intro l
      cases l with
      | none => exact lru.nodup
      | some => simp [Cache.queueOf, lru.queue]
    · intro l x
      cases l with
      | none =>
        exact ⟨fun hx => ⟨(lru.mem x).mpr hx, lru.arcList x⟩, fun hx => (lru.mem x).mp hx.1⟩
      | some => simp [Cache.queueOf, lru.queue, lru.arcList]
    · intro x _
      simp [lru.queue, lru.arcGhost]
    · intro l
      cases l with
      | none => exact lru.count
      | some => simp [Cache.countOf, Cache.queueOf, lru.size, lru.queue]

/-! ### Runs that fill the cache -/

theorem nested_valid (n : ℕ) :
    2 ≤ (nested n).pdid ∧ cnidStart ≤ (nested n).did ∧ (nested n).vid ≠ 0 := by
  simp only [nested, cnidStart]
  split_ifs <;> omega

/-- The cache in ARC mode. -/
def arcCache (a : Arc) : Cache := ⟨true, [], 0, a⟩

/-- The runs in ARC mode that never add a ghost. -/
abbrev ArcRun (c : ℕ) : Cache → Prop := Reachable true c fun s op => ¬ op.AddsGhost s

theorem dircacheAdd_withNext (n : ℕ) (a : Arc) :
    Dircache.dircacheAdd n (nested n) (withNext n a) = Dircache.dircacheAdd n (nested n) a := by
  have he : Dircache.addExpunge n (nested n) (withNext n a) =
      Dircache.addExpunge n (nested n) a := by
    unfold Dircache.addExpunge withNext
    rw [Function.update_idem]
  unfold Dircache.dircacheAdd Dircache.addRoom
  rw [he]
  rfl

section lift
variable {c n : ℕ} {a a' : Arc} (hr : ArcRun c (arcCache a))
include hr

theorem lift_add (hn : n ∉ a.dircache) (he : Dircache.exec a (.add n (nested n)) = some a') :
    ArcRun c (arcCache a') := by
  have hnew : ArcRun c (arcCache (withNext n a)) :=
    .step (.dirNew n (nested n)) hr hn id rfl
  have hdir : (arcCache (withNext n a)).arc.dir n = nested n := by simp [arcCache, withNext]
  refine .step (.add n) hnew hn ?_ ?_
  · simp only [Op.AddsGhost, hdir]
    simp [nested]
  · change dircacheAdd n ((arcCache (withNext n a)).arc.dir n) (arcCache (withNext n a)) = _
    rw [hdir]
    unfold dircacheAdd
    rw [if_pos (nested_valid n)]
    change (Dircache.dircacheAdd n (nested n) (withNext n a)).map arcCache = _
    rw [dircacheAdd_withNext, show Dircache.dircacheAdd n (nested n) a = some a' from he]
    rfl

end lift

/-- Adding and hitting directories one by one fills T2. -/
theorem fill_reachable {c : ℕ} (hc : 3 ≤ c) {n : ℕ} (hn : n ≤ c) :
    ∃ a, Chain c n a ∧ ArcRun c (arcCache a) ∧
      a.size .t1 = 0 ∧ a.size .b1 = 0 ∧ a.size .t2 = n ∧ a.size .b2 = 0 := by
  induction n with
  | zero =>
    refine ⟨arcInit c fun _ => blank, ⟨.init _, rfl, rfl, ?_⟩, .init, rfl, rfl, rfl, rfl⟩
    intro y hy
    cases hy
  | succ n ih =>
    obtain ⟨a, h, hr, ht₁, hb₁, ht₂, hb₂⟩ := ih (by omega)
    obtain ⟨a₁, a', he₁, hm, he', h', e₁, e₂, e₃, e₄⟩ := h.grow hc ht₁ hb₁ (by omega)
    cases he'
    exact ⟨_, h', .step (.promote n) (lift_add hr h.not_mem he₁) hm id rfl, e₁, e₂, by omega,
      by omega⟩

/-- One directory more sends an entry of T2 to B2. -/
theorem ghost_reachable {c : ℕ} (hc : 3 ≤ c) :
    ∃ a, Chain c (c + 1) a ∧ ArcRun c (arcCache a) ∧
      ∃ g, g ∈ a.queue .b2 := by
  obtain ⟨a, h, hr, ht₁, hb₁, ht₂, hb₂⟩ := fill_reachable hc (le_refl c)
  obtain ⟨a', h', he, _, _, _, _, e₄⟩ :=
    h.add_evictsT2 hc ht₁ hb₁ (by omega) (by omega) (by omega)
  rw [if_pos (by omega)] at e₄
  have hi := (h'.reach.inv (by omega)).1
  refine ⟨a', h', lift_add hr h.not_mem he, List.exists_mem_of_length_pos ?_⟩
  rw [← hi.consistent.size]
  omega

/-- The operations apart from `dir_modify`. -/
def Op.Plain : Op → Prop
  | .modify _ _ => False
  | _ => True

/-- The LRU mode with the first `n` nested directories in the cache and `m` of them in memory. -/
def lruCache (n m : ℕ) : Cache where
  enabled := false
  indexQueue := List.range n
  queueCount := n
  arc := { arcInit 1024 fun y => if y < m then nested y else blank with
    dircache := (List.range n).reverse
    indexDidname := (List.range n).reverse
    vidEntryCount := Function.update (fun _ => 0) 1 n }

/-- The runs in LRU mode that both theorems below speak of. -/
abbrev LruRun : Cache → Prop := Reachable false 1024 fun s op => op.Plain ∧ ¬ op.AddsGhost s

theorem lruCache_setDir {n m : ℕ} (h : m ≤ n + 1) (hn : n ≤ m) :
    (lruCache n m).setDir n (nested n) = lruCache n (n + 1) := by
  have hdir : Function.update (fun y => if y < m then nested y else blank) n (nested n) =
      fun y => if y < n + 1 then nested y else blank := by
    funext (y : ℕ)
    by_cases hy : y = n
    · subst hy
      simp
    · rw [Function.update_of_ne hy]
      exact if_congr (by omega) rfl rfl
  unfold Cache.setDir lruCache
  simp only [arcInit, hdir]

theorem addExpunge_lruCache (n : ℕ) :
    addExpunge n (nested n) (lruCache n (n + 1)) = (false, lruCache n (n + 1)) := by
  have hdir {y : ℕ} (hy : y ∈ (List.range n).reverse) :
      (lruCache n (n + 1)).arc.dir y = nested y ∧ y < n := by
    have hy' : y < n := List.mem_range.mp (List.mem_reverse.mp hy)
    exact ⟨if_pos (Nat.lt_succ_of_lt hy'), hy'⟩
  have hdid : (lruCache n (n + 1)).arc.lookupDid (nested n) = none := by
    refine List.find?_eq_none.mpr fun (y : ℕ) hy => ?_
    obtain ⟨hy, hlt⟩ := hdir hy
    simp [hy, nested]
    omega
  have hname : (lruCache n (n + 1)).arc.lookupDidname (nested n) = none := by
    refine List.find?_eq_none.mpr fun (y : ℕ) hy => ?_
    obtain ⟨hy, hlt⟩ := hdir hy
    simp [hy, nested]
    split_ifs <;> omega
  unfold addExpunge
  simp only [lruCache_setDir (le_refl (n + 1)) (Nat.le_succ n), hdid, dircacheExpungeDuplicate,
    hname]

theorem LruRun.dirNew {n : ℕ} (hr : LruRun (lruCache n n)) : LruRun (lruCache n (n + 1)) :=
  .step (.dirNew n (nested n)) hr (by simp [Op.Legal, lruCache]) ⟨trivial, id⟩
    (congrArg some (lruCache_setDir (Nat.le_succ n) le_rfl))

/-- Adding directories one by one fills the cache. -/
theorem lruCache_reachable {n : ℕ} (hn : n ≤ 1024) : LruRun (lruCache n n) := by
  induction n with
  | zero =>
    have hinit : lruCache 0 0 = dircacheInit false 1024 := by
      simp [lruCache, dircacheInit, arcInit]
    rw [hinit]
    exact .init
  | succ n ih =>
    have hdir : (lruCache n (n + 1)).arc.dir n = nested n := if_pos (Nat.lt_succ_self n)
    have hroom : makeRoom (lruCache n (n + 1)) = some (lruCache n (n + 1)) :=
      if_neg (by simpa [lruCache, arcInit] using Nat.lt_of_succ_le hn)
    refine .step (.add n) (ih (by omega)).dirNew ?_ ⟨trivial, ?_⟩ ?_
    · simp [Op.Legal, lruCache]
    · simp [Op.AddsGhost, hdir, nested]
    · change dircacheAdd n ((lruCache n (n + 1)).arc.dir n) (lruCache n (n + 1)) = _
      unfold dircacheAdd
      rw [hdir, if_pos (nested_valid n), addExpunge_lruCache, hroom]
      simp [enqueue, lruCache, arcInit, List.range_succ, show n ≤ 1024 by omega,
        show n < 1024 by omega, nested]

/-- With the first directory as the current one, the next one is added to the full cache and
removed again. -/
theorem lru_turnover : ∃ s s' s'', s.arc.curdir = some 0 ∧ s.arc.dircache.length = 1024 ∧
    exec s (.add 1024) = some s' ∧ 1024 ∈ s'.arc.dircache ∧
    exec s' (.remove 1024) = some s'' ∧ 1024 ∉ s''.arc.dircache ∧
    LruRun s' ∧ LruRun s'' := by
  have hr := Reachable.step (.chdir (some 0)) (lruCache_reachable le_rfl).dirNew trivial
    ⟨trivial, id⟩ rfl
  have hgood := (hr.mono fun _ _ h => h.2).good (by omega)
  have hmem : 1024 ∉ ((lruCache 1024 1025).setCurdir (some 0)).arc.dircache := by
    simp [lruCache, Cache.setCurdir]
  have hdir : ((lruCache 1024 1025).setCurdir (some 0)).arc.dir 1024 = nested 1024 := by
    simp [lruCache, Cache.setCurdir, arcInit]
  obtain ⟨s', he⟩ := dircacheAdd_returns (d := nested 1024) hgood (by decide) hmem rfl
    (fun _ => rfl) (nested_valid 1024)
  rw [← hdir] at he
  have hr' := Reachable.step (.add 1024) hr hmem
    ⟨trivial, by simp [Op.AddsGhost, hdir, nested]⟩ he
  have hgood' := (hr'.mono fun _ _ h => h.2).good (by omega)
  refine ⟨_, s', _, rfl, by simp [lruCache, Cache.setCurdir], he, ?_, rfl,
    (dircacheRemove_removed hgood' 1024).not_mem hgood', hr',
    .step (.remove 1024) hr' trivial ⟨trivial, id⟩ rfl⟩
  rw [hdir] at he
  exact (dircacheAdd_good hgood hmem rfl rfl he).2

/-- In ARC and in the LRU mode, the indexes agree after every operation of a run that gives
`dircache_add` no entry whose ghost flag is set. -/
theorem index_consistent_without_ghost_adds {enabled : Bool} {maxsize : ℕ} (hc : 2 ≤ maxsize)
    {s : Cache} (hr : Reachable enabled maxsize (fun s op => ¬ op.AddsGhost s) s) :
    IndexConsistent s :=
  (hr.good hc).indexConsistent

/-- A run in each mode that has evicted an entry. -/
theorem index_consistent_without_ghost_adds_full :
    (∃ s g, Reachable true 1024 (fun s op => ¬ op.AddsGhost s) s ∧ g ∈ s.arc.queue .b2 ∧
      IndexConsistent s) ∧
    ∃ s, Reachable false 1024 (fun s op => ¬ op.AddsGhost s) s ∧ 1024 ∈ s.arc.dircache ∧
      IndexConsistent s := by
  obtain ⟨a, _, hr, g, hg⟩ := ghost_reachable (c := 1024) (by omega)
  obtain ⟨_, s, _, _, _, _, hmem, _, _, hr', _⟩ := lru_turnover
  replace hr' := hr'.mono fun _ _ h => h.2
  exact ⟨⟨_, g, hr, hg, index_consistent_without_ghost_adds (by omega) hr⟩,
    s, hr', hmem, index_consistent_without_ghost_adds (by omega) hr'⟩

/-! ### The LRU mode stays within its size -/

/-- In the LRU mode the mode and the capacity stay as they were set up. -/
theorem exec_lru (h : Good s) (hm : s.enabled = false) {op : Op} (hl : op.Legal s) (ho : op.Plain)
    (he : exec s op = some s') : Good s' ∧ s'.enabled = false ∧ s'.arc.c = s.arc.c := by
  have hghost : ¬ op.AddsGhost s := by
    cases op with
    | add x => exact Bool.eq_false_iff.mp (h.plain hm x).2
    | modify => exact ho.elim
    | _ => exact id
  refine ⟨exec_good h hl hghost he, ?_⟩
  cases op with
  | add x =>
    obtain ⟨hlist, hflag⟩ := h.plain hm x
    obtain ⟨hc, hen, hcap⟩ := addExpunge_cleared h hl hlist fun _ => hflag
    simp only [exec, dircacheAdd, hm, Bool.false_eq_true, if_false] at he
    split_ifs at he with hd
    obtain ⟨s₁, hroom, he⟩ := Option.bind_eq_some_iff.mp he
    have r := makeRoom_shrunk hc.good (hen.trans hm) hroom
    have hm₁ := r.enabled.trans (hen.trans hm)
    obtain ⟨_, hm₂, hcap₂, _⟩ := enqueue_good (hc.shrunk r) hm₁ ⟨hd.2.1, hd.2.2⟩ he
    exact ⟨hm₂.trans hm₁, hcap₂.trans (r.c.trans hcap)⟩
  | remove x =>
    cases he
    have r := dircacheRemove_removed h x
    exact ⟨r.enabled.trans hm, r.c⟩
  | dirRemove x =>
    cases he
    have r := dircacheRemove_removed h x
    unfold dirRemove
    split_ifs
    · exact ⟨hm, rfl⟩
    · dsimp only
      split_ifs <;> exact ⟨r.enabled.trans hm, r.c⟩
  | promote =>
    cases he
    unfold dircachePromote
    rw [if_neg (by simp [hm])]
    split_ifs
    exacts [⟨hm, rfl⟩, ⟨hm, rfl⟩]
  | search =>
    cases he
    rw [searchHit, if_neg (by simp [hm])]
    exact ⟨hm, rfl⟩
  | dirNew | chdir =>
    cases he
    exact ⟨hm, rfl⟩
  | modify => exact ho.elim

theorem Reachable.lru (hc : 2 ≤ maxsize)
    (hr : Reachable false maxsize (fun _ op => op.Plain) s) :
    Good s ∧ s.enabled = false ∧ s.arc.c = maxsize := by
  induction hr with
  | init => exact ⟨dircacheInit_good false hc, rfl, rfl⟩
  | step op _ hl ho he ih =>
    obtain ⟨h, hm, hcap⟩ := exec_lru ih.1 ih.2.1 hl ho he
    exact ⟨h, hm, hcap.trans ih.2.2⟩

/-- The LRU mode never holds more entries than configured, the queue and its counter hold as many
as the tables, and an entry that passes the assertions of `dircache_add` is added, so that no
eviction meets an empty queue. -/
theorem lru_bounded {maxsize : ℕ} (hc : 1024 ≤ maxsize) {s : Cache}
    (hr : Reachable false maxsize (fun _ op => op.Plain) s) :
    s.arc.dircache.length ≤ maxsize ∧ s.indexQueue.length = s.arc.dircache.length ∧
      s.queueCount = s.arc.dircache.length ∧
      ∀ x, x ∉ s.arc.dircache → 2 ≤ (s.arc.dir x).pdid → cnidStart ≤ (s.arc.dir x).did →
        (s.arc.dir x).vid ≠ 0 → ∃ s', exec s (.add x) = some s' ∧
          s'.arc.dircache.length ≤ maxsize := by
  obtain ⟨h, hm, hcap⟩ := hr.lru (by omega)
  have bounded : ∀ {s : Cache}, Good s → s.enabled = false → s.arc.c = maxsize →
      s.arc.dircache.length ≤ maxsize ∧ s.indexQueue.length = s.arc.dircache.length ∧
        s.queueCount = s.arc.dircache.length := by
    intro s h hm hcap
    cases h with
    | arc => cases hm
    | lru lru => exact ⟨hcap ▸ lru.fits, lru.length.symm, lru.count.trans lru.length.symm⟩
  obtain ⟨hfits, hqueue, hcount⟩ := bounded h hm hcap
  refine ⟨hfits, hqueue, hcount, ?_⟩
  intro x hx hp hd hv
  obtain ⟨hlist, hflag⟩ := h.plain hm x
  have hroom : dircacheFreeQuantum ≤ s.arc.c := by
    unfold dircacheFreeQuantum
    omega
  obtain ⟨s', he⟩ := dircacheAdd_returns h hroom hx hlist (fun _ => hflag) ⟨hp, hd, hv⟩
  obtain ⟨h', hm', hcap'⟩ := @exec_lru _ _ h hm (.add x) hx trivial he
  exact ⟨s', he, (bounded h' hm' (hcap'.trans hcap)).1⟩

/-- The full cache evicts to take one directory more, and gives it back. -/
theorem lru_bounded_full : ∃ s s' s'', s.arc.curdir = some 0 ∧ s.arc.dircache.length = 1024 ∧
    exec s (.add 1024) = some s' ∧ 1024 ∈ s'.arc.dircache ∧ s'.arc.dircache.length ≤ 1024 ∧
    exec s' (.remove 1024) = some s'' ∧ 1024 ∉ s''.arc.dircache ∧
    s''.queueCount = s''.arc.dircache.length := by
  obtain ⟨s, s', s'', hcur, hfull, he, hmem, he', hout, hr, hr'⟩ := lru_turnover
  exact ⟨s, s', s'', hcur, hfull, he, hmem, (lru_bounded le_rfl (hr.mono fun _ _ h => h.1)).1,
    he', hout, (lru_bounded le_rfl (hr'.mono fun _ _ h => h.1)).2.2.1⟩

/-! ### A ghost that is moved to another DID -/

/-- A stat that shows another inode, for whose object the database has this CNID. -/
def rekeyTo (cnid : ℕ) : ModifyArgs where
  path := false
  newPdid := 0
  newUname := none
  joinFails := false
  insertFails := false
  stat := true
  inoChanged := true
  usable := true
  otherKind := false
  cnidLookup := some cnid
  notFound := false
  objectCnid := none
  noPromote := false

/-- `dir_modify` of a cached entry for whose path the stat shows the object of another CNID. -/
theorem dirModify_rekeyTo (h : Good s) (hx : x ∈ s.arc.dircache) {cnid : ℕ}
    (hne : cnid ≠ (s.arc.dir x).did)
    (ha : dircacheAdd x { (dircacheRemove x s).arc.dir x with did := cnid } (dircacheRemove x s) =
      some s') :
    dirModify x (rekeyTo cnid) s = some (dircachePromote x s') := by
  have hdid := (h.tables.valid x hx).did
  unfold cnidStart at hdid
  have hinv : (s.arc.dir x).did ≠ cnidInvalid := by
    unfold cnidInvalid
    omega
  have hroot : (s.arc.dir x).did ≠ dirdidRoot := by
    unfold dirdidRoot
    omega
  have hheal : modifyHeal x s = some s := by
    simp [modifyHeal, Cache.heals, (h.queued_iff x).mpr hx]
  have hpath : modifyPath x (rekeyTo cnid) s = some (true, s) := rfl
  have hout : statOutcome x (rekeyTo cnid) s = .rekey cnid := by
    simp [statOutcome, rekeyTo, newCnid, hroot, hne]
  have hstat : modifyStat x (rekeyTo cnid) s = some (true, s') := by
    unfold modifyStat
    rw [hout]
    dsimp only
    rw [ha]
    rfl
  unfold dirModify
  rw [if_neg hinv, hheal]
  simp only [andThen, Option.map_some, Option.bind_some]
  rw [hpath]
  simp only [Option.bind_some, if_true]
  rw [hstat]
  rfl

/-- The ghost keeps its flag on the way to T2. -/
theorem rekey_ghost {a : Arc} (hi : Inv a) (hw : Whole a) {g : Ptr} (hg : g ∈ a.queue .b2)
    (hp : 2 ≤ (a.dir g).pdid) (cnid : ℕ) (hc : cnidStart ≤ cnid) (hne : cnid ≠ (a.dir g).did) :
    ∃ a', exec (arcCache a) (.modify g (rekeyTo cnid)) = some (arcCache a') ∧
      Consistent a' ∧ g ∈ a'.queue .t2 ∧ (a'.dir g).arcGhost = true := by
  have hmem : g ∈ a.dircache := (hi.consistent.dircache g).mpr ⟨_, hg⟩
  have hgood : Good (arcCache a) := Good.arc hi hw
  obtain ⟨hdid, hvid⟩ := hw.tables.valid g hmem
  have hinv : (a.dir g).did ≠ cnidInvalid := by
    unfold cnidStart at hdid
    unfold cnidInvalid
    omega
  -- the removal leaves the flag on
  have hrem : (Dircache.dircacheRemove g a).dir g = { a.dir g with arcList := none } :=
    dircacheRemove_dir hgood g hinv
  have r := dircacheRemove_removed hgood g
  have hout : g ∉ (Dircache.dircacheRemove g a).dircache := r.not_mem hgood
  have hgood₁ : Good (arcCache (Dircache.dircacheRemove g a)) := r.good
  cases hgood₁ with
  | arc hi₁ hw₁ =>
    -- the insertion puts the flagged entry into T1
    obtain ⟨a₂, ha⟩ := dircacheAdd_spec hi₁ hout { a.dir g with arcList := none, did := cnid }
    have hadd : dircacheAdd g { (Dircache.dircacheRemove g a).dir g with did := cnid }
        (arcCache (Dircache.dircacheRemove g a)) = some (arcCache a₂) := by
      rw [hrem]
      unfold dircacheAdd
      rw [if_pos ⟨hp, hc, hvid⟩]
      change (Dircache.dircacheAdd g _ (Dircache.dircacheRemove g a)).map arcCache = _
      rw [ha.exec]
      rfl
    have hflag : (a₂.dir g).arcGhost = true := by
      obtain ⟨_, _, hdir, _, _⟩ := arc_addRoom_cleared hi₁ hw₁ hout
        (d := { a.dir g with arcList := none, did := cnid }) rfl
      obtain ⟨cur, rfl⟩ := arc_dircacheAdd_some ha.exec
      simp only [arcCaseIvInsert, Function.update_self, hdir]
      exact hi.consistent.ghost g (.inr hg)
    have hlist : (a₂.dir g).arcList = some .t1 := ha.inv.consistent.listed _ g ha.queued
    refine ⟨arcCaseI g a₂, ?_, (arcCaseI_spec ha.inv.consistent (.inl ha.queued)).1, ?_, ?_⟩
    · refine (dirModify_rekeyTo hgood hmem hne hadd).trans ?_
      simp [dircachePromote, arcCache, Dircache.dircachePromote, hlist]
    · simp [arcCaseI, hlist, migrate]
    · simpa [arcCaseI, hlist, migrate] using hflag

/-- A ghost whose validation shows another inode is moved to another DID and ends in T2 with its
ghost flag set. -/
theorem rekeyed_ghost_breaks_index : ∃ s s' x a,
    Reachable true 1024 (fun s op => ¬ op.AddsGhost s) s ∧ IndexConsistent s ∧
    x ∈ s.arc.queue .b2 ∧ Op.Legal s (.modify x a) ∧ exec s (.modify x a) = some s' ∧
    Reachable true 1024 (fun _ _ => True) s' ∧ x ∈ s'.arc.queue .t2 ∧
    (s'.arc.dir x).arcGhost = true ∧ ¬ IndexConsistent s' := by
  obtain ⟨a, h, hr, g, hg⟩ := ghost_reachable (c := 1024) (by omega)
  have hgood := hr.good (by omega)
  have hcons := hgood.indexConsistent
  cases hgood with
  | arc hi hw =>
    have hmem : g ∈ a.dircache := (hi.consistent.dircache g).mpr ⟨_, hg⟩
    obtain ⟨hlt, hdid, hpdid⟩ := h.keys g hmem
    have hp : 2 ≤ (a.dir g).pdid := by
      rw [hpdid]
      unfold nested
      dsimp only
      split_ifs <;> omega
    obtain ⟨a', he, hc, ht₂, hflag⟩ :=
      rekey_ghost hi hw hg hp 5000 (by unfold cnidStart; omega) (by omega)
    have hlegal : Op.Legal (arcCache a) (.modify g (rekeyTo 5000)) := fun hp => by cases hp
    refine ⟨arcCache a, arcCache a', g, rekeyTo 5000, hr, hcons, hg, hlegal, he,
      .step _ (hr.mono fun _ _ _ => trivial) hlegal trivial he, ht₂, hflag, ?_⟩
    intro hcons'
    have hmem' : g ∈ a'.dircache := (hc.dircache g).mpr ⟨_, ht₂⟩
    rcases (hcons'.ghost g hmem').mp hflag with hb | hb
    · cases hc.unique ht₂ hb
    · cases hc.unique ht₂ hb

end Netatalk.DirIndex
