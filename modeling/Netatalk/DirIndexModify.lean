import Netatalk.DirIndexGood

/-! # `dir_modify` keeps the cache whole

The entry that takes another name is out of the name index while the holder of that name is
expunged.  The expunge touches neither the entry nor its name, so it may as well come first
(`expunge_retitle`), and what is left is an entry that changes its name key in place
(`Good.retitle`).  The other parts of `dir_modify` are removals and insertions. -/

namespace Netatalk.DirIndex

open List Function Dircache

/-! ### A new name -/

/-- Two records of one entry, apart from what a rename changes. -/
structure SameSlot (d d' : Dir) : Prop where
  vid : d'.vid = d.vid
  did : d'.did = d.did
  arcList : d'.arcList = d.arcList
  arcGhost : d'.arcGhost = d.arcGhost

/-- The entry is out of the name index and has another record. -/
def retitleArc (x : Ptr) (d : Dir) (a : Arc) : Arc :=
  { a with indexDidname := a.indexDidname.erase x, dir := update a.dir x d }

/-- `retitleArc` in the cache of both modes. -/
def retitle (x : Ptr) (d : Dir) (s : Cache) : Cache := { s with arc := retitleArc x d s.arc }

theorem retitleArc_self (x : Ptr) (d : Dir) (a : Arc) : (retitleArc x d a).dir x = d := by
  simp [retitleArc]

section commute
variable {x y : Ptr} (hy : y ≠ x) (d : Dir)
include hy

theorem retitleArc_dir (a : Arc) : (retitleArc x d a).dir y = a.dir y := by
  simp [retitleArc, update_of_ne hy]

theorem update_retitleArc (a : Arc) (e : Dir) :
    { retitleArc x d a with dir := update (retitleArc x d a).dir y e } =
      retitleArc x d { a with dir := update a.dir y e } := by
  unfold retitleArc
  rw [update_comm hy]

theorem unindex_retitleArc (a : Arc) :
    unindex y (retitleArc x d a) = retitleArc x d (unindex y a) := by
  unfold unindex
  rw [retitleArc_dir hy]
  unfold retitleArc
  rw [erase_comm]

theorem arc_dircacheRemove_retitleArc (a : Arc) : Dircache.dircacheRemove y (retitleArc x d a) =
    retitleArc x d (Dircache.dircacheRemove y a) := by
  have hq : (retitleArc x d a).queued y = a.queued y := rfl
  unfold Dircache.dircacheRemove
  rw [← unindex_retitleArc hy, hq]
  congr 1
  split_ifs
  · dsimp only
    rw [retitleArc_dir hy]
    cases (a.dir y).arcList with
    | none =>
      rw [retitleArc_dir hy]
      exact update_retitleArc hy d { a with queue := fun l => (a.queue l).erase y } _
    | some l =>
      dsimp only [unqueue]
      rw [retitleArc_dir hy]
      exact update_retitleArc hy d (unqueue l y a) _
  · rfl

theorem dircacheRemove_retitle (s : Cache) :
    dircacheRemove y (retitle x d s) = retitle x d (dircacheRemove y s) := by
  obtain ⟨enabled, q, n, a⟩ := s
  cases enabled with
  | false =>
    simp only [dircacheRemove, retitle, unindex_retitleArc hy]
    rfl
  | true => simp only [dircacheRemove, retitle, arc_dircacheRemove_retitleArc hy, if_true]

/-- An expunge of another entry does not see the new name. -/
theorem expunge_retitle (took : Bool) (s : Cache) :
    dircacheExpungeDuplicate (some y) (took, retitle x d s) =
      ((dircacheExpungeDuplicate (some y) (took, s)).1,
        retitle x d (dircacheExpungeDuplicate (some y) (took, s)).2) := by
  have hfree : ∀ s : Cache, ({ retitle x d s with
      arc := dircacheDeferFree y (retitle x d s).arc } : Cache) =
      retitle x d { s with arc := dircacheDeferFree y s.arc } := by
    intro s
    unfold retitle dircacheDeferFree
    rw [retitleArc_dir hy, update_retitleArc hy]
  have hcur : (retitle x d s).arc.curdir = s.arc.curdir := rfl
  have hset : (retitle x d s).setCurdir none = retitle x d (s.setCurdir none) := rfl
  have hdir : (retitle x d s).arc.dir y = s.arc.dir y := retitleArc_dir hy d s.arc
  unfold dircacheExpungeDuplicate
  dsimp only
  rw [hcur, hdir, hset]
  split_ifs
  · rw [dircacheRemove_retitle hy, hfree]
  · rw [dircacheRemove_retitle hy, hfree]

end commute

variable {s : Cache} {x : Ptr} {d : Dir}

/-- The entry changes its name key in place. -/
theorem Good.retitle (h : Good s) (hx : x ∈ s.arc.dircache) (hd : SameSlot (s.arc.dir x) d)
    (hn : ∀ y ∈ s.arc.dircache, y ≠ x → nameKey (s.arc.dir y) ≠ nameKey d) :
    Good { s with arc := { retitleArc x d s.arc with
      indexDidname := x :: (retitleArc x d s.arc).indexDidname } } := by
  have ht := h.tables.retitle hx hd.vid hd.did hn
  have hdir : ∀ y, (update s.arc.dir x d y).arcList = (s.arc.dir y).arcList ∧
      (update s.arc.dir x d y).arcGhost = (s.arc.dir y).arcGhost := by
    intro y
    by_cases hy : y = x
    · rw [hy, update_self]
      exact ⟨hd.arcList, hd.arcGhost⟩
    · rw [update_of_ne hy]
      exact ⟨rfl, rfl⟩
  cases h with
  | @arc a inv whole =>
    have hc₀ : Consistent { a with dir := update a.dir x d } :=
      inv.consistent.congr (fun _ => .refl _) rfl rfl rfl fun _ y _ => hdir y
    have hc : Consistent { retitleArc x d a with
        indexDidname := x :: (retitleArc x d a).indexDidname } :=
      { hc₀ with
        nodupDidname := ht.nodupDidname
        didname := fun y => (ht.same y).symm.trans (hc₀.dircache y) }
    refine Good.arc (inv.shrink hc rfl rfl rfl fun _ => le_rfl).1 ⟨hc, ht, ?_, ?_⟩
    · intro y hy
      exact (hdir y).2.trans (whole.live y hy)
    · intro y hy
      have hyx : y ≠ x := fun he => hy (he ▸ hx)
      simp only [retitleArc, update_of_ne hyx]
      exact whole.loose y hy
  | @lru q n a lru =>
    exact Good.lru { lru with
      tables := ht, arcList := fun y => (hdir y).1.trans (lru.arcList y)
      arcGhost := fun y => (hdir y).2.trans (lru.arcGhost y) }

/-- The holder of a name among the other entries, as the lookup of the new name finds it. -/
theorem retitle_lookup {a : Arc} (h : Tables a) (x : Ptr) (d : Dir) :
    ((retitleArc x d a).lookupDidname d = none ∧
      ∀ y ∈ a.dircache, y ≠ x → nameKey (a.dir y) ≠ nameKey d) ∨
    ∃ y ∈ a.dircache, y ≠ x ∧ (retitleArc x d a).lookupDidname d = some y ∧
      ∀ z ∈ a.dircache, nameKey (a.dir z) = nameKey d → z = y := by
  have hmem : ∀ y, y ∈ (retitleArc x d a).indexDidname ↔ y ≠ x ∧ y ∈ a.dircache := by
    intro y
    rw [h.same]
    exact h.nodupDidname.mem_erase_iff
  cases hy : (retitleArc x d a).lookupDidname d with
  | none =>
    refine .inl ⟨rfl, ?_⟩
    intro y hyd hyx he
    have := find?_eq_none.mp hy y ((hmem y).mpr ⟨hyx, hyd⟩)
    simp only [nameKey, Prod.mk.injEq] at he
    simp [retitleArc_dir hyx, he] at this
  | some y =>
    obtain ⟨hyx, hyd⟩ := (hmem y).mp (mem_of_find?_eq_some hy)
    have hk := find?_some hy
    simp only [retitleArc_dir hyx, Bool.and_eq_true, decide_eq_true_eq] at hk
    have hk' : nameKey (a.dir y) = nameKey d := by simp [nameKey, hk]
    exact .inr ⟨y, hyd, hyx, rfl, fun z hz he => h.name hz hyd (he.trans hk'.symm)⟩

section
variable (h : Good s) (hx : x ∈ s.arc.dircache)
include h hx

/-- The expunge in `dircache_reindex_didname` leaves a whole cache with the new name free, seen
through the entry that is out of the name index. -/
theorem reindex_expunge (d : Dir) :
    ∃ s', (dircacheExpungeDuplicate ((retitleArc x d s.arc).lookupDidname d)
        (false, retitle x d s)).2 = retitle x d s' ∧ Good s' ∧ x ∈ s'.arc.dircache ∧
      s'.arc.dir x = s.arc.dir x ∧
      ∀ y ∈ s'.arc.dircache, y ≠ x → nameKey (s'.arc.dir y) ≠ nameKey d := by
  rcases retitle_lookup h.tables x d with ⟨he, hf⟩ | ⟨y, hyd, hyx, he, hk⟩
  · rw [he]
    exact ⟨s, rfl, h, hx, rfl, hf⟩
  · rw [he, expunge_retitle hyx]
    have r := expunge_removed h y false
    refine ⟨_, rfl, r.good, ?_, r.other x hyx.symm, fun z hz _ => r.frees h hk z hz⟩
    rw [r.dircache]
    exact (mem_erase_of_ne hyx.symm).mpr hx

/-- The removal of the entry while it is out of the name index. -/
theorem dircacheRemove_retitle_self (hd : SameSlot (s.arc.dir x) d) :
    dircacheRemove x (retitle x d s) =
      (dircacheRemove x s).setDir x { d with arcList := none } := by
  have her : (s.arc.indexDidname.erase x).erase x = s.arc.indexDidname.erase x :=
    erase_of_not_mem h.tables.nodupDidname.not_mem_erase
  have hvid := hd.vid
  have hl := hd.arcList
  cases h with
  | @arc a inv whole =>
    obtain ⟨l, hq⟩ := (inv.consistent.dircache x).mp hx
    have hq' : a.queued x = true := (queued_iff).mpr ⟨l, hq⟩
    have hq'' : (retitleArc x d a).queued x = true := hq'
    have hlist : (a.dir x).arcList = some l := inv.consistent.listed l x hq
    have hxa : x ∈ a.dircache := hx
    simp only [dircacheRemove, Cache.setDir, retitle, Dircache.dircacheRemove, hq', hq'',
      retitleArc_self, hl, hlist]
    simp only [unindex, unqueue, retitleArc, update_self, update_idem, hvid, her, if_true]
  | @lru q n a lru =>
    have hnone : ({ d with arcList := none } : Dir) = d := by
      rw [← lru.arcList x, ← hl]
    rw [hnone]
    simp only [dircacheRemove, Cache.setDir, retitle, unindex,
      retitleArc, update_self, hvid, her]
    rfl

theorem dirRemove_retitle (hd : SameSlot (s.arc.dir x) d) : Good (dirRemove x (retitle x d s)) := by
  have hvalid := (h.tables.valid x hx).did
  have hrem := dircacheRemove_retitle_self h hx hd
  have r := dircacheRemove_removed h x
  have r' : Removed x s ((dircacheRemove x s).setDir x { d with arcList := none }) := by
    refine { r with good := r.good.setDir (r.not_mem h) (.inr rfl) ?_, other := ?_ }
    · intro he
      exact ⟨rfl, hd.arcGhost.trans (h.plain (r.enabled.symm.trans he) x).2⟩
    · intro y hy
      exact (update_of_ne hy _ _).trans (r.other y hy)
  have hdid' : ((retitle x d s).arc.dir x).did = (s.arc.dir x).did := by
    rw [← hd.did]
    exact congrArg Dir.did (retitleArc_self x d s.arc)
  unfold dirRemove
  unfold cnidStart at hvalid
  rw [if_neg, hrem]
  · dsimp only
    split_ifs
    · have r'' : Removed x s (((dircacheRemove x s).setDir x
          { d with arcList := none }).setCurdir none) :=
        { r' with good := r'.good.setCurdir none }
      exact (r''.free h x).good
    · exact (r'.free h x).good
  · unfold dirdidRootParent dirdidRoot cnidInvalid
    omega

end

variable {a : ModifyArgs} {r : Bool × Cache}

/-- `dircache_reindex_didname` of an entry that has its new name and is out of the name index. -/
theorem dircacheReindexDidname_spec (h : Good s) (hx : x ∈ s.arc.dircache) {fails : Bool}
    (he : dircacheReindexDidname x fails (retitle x d s) = some r) :
    ∃ s', Good s' ∧ x ∈ s'.arc.dircache ∧ s'.arc.dir x = s.arc.dir x ∧
      (∀ y ∈ s'.arc.dircache, y ≠ x → nameKey (s'.arc.dir y) ≠ nameKey d) ∧
      (r = (false, retitle x d s') ∨ r = (true, { s' with arc := { retitleArc x d s'.arc with
        indexDidname := x :: (retitleArc x d s'.arc).indexDidname } })) := by
  obtain ⟨s₁, hs₁, hg, hm, hdir, hf⟩ := reindex_expunge h hx d
  have hd : (retitle x d s).arc.dir x = d := retitleArc_self x d s.arc
  have hs₁' : (dircacheExpungeDuplicate ((retitle x d s).arc.lookupDidname d)
    (false, retitle x d s)).2 = retitle x d s₁ := hs₁
  unfold dircacheReindexDidname at he
  dsimp only at he
  rw [hd, hs₁'] at he
  generalize (dircacheExpungeDuplicate ((retitle x d s).arc.lookupDidname d)
    (false, retitle x d s)).1 = took at he
  -- the current directory may have been the expunged entry
  obtain ⟨s₂, heq, hs₂⟩ : ∃ s₂, (if took = true then (retitle x d s₁).setCurdir
      (if d.isFile = true then none else some x) else retitle x d s₁) = retitle x d s₂ ∧
      (Good s₂ ∧ x ∈ s₂.arc.dircache ∧ s₂.arc.dir x = s.arc.dir x ∧
        ∀ y ∈ s₂.arc.dircache, y ≠ x → nameKey (s₂.arc.dir y) ≠ nameKey d) := by
    cases took with
    | false => exact ⟨s₁, rfl, hg, hm, hdir, hf⟩
    | true =>
      exact ⟨s₁.setCurdir (if d.isFile = true then none else some x), rfl, hg.setCurdir _, hm,
        hdir, hf⟩
  rw [heq] at he
  split_ifs at he
  · cases he
    exact ⟨s₂, hs₂.1, hs₂.2.1, hs₂.2.2.1, hs₂.2.2.2, .inl rfl⟩
  · cases he
    exact ⟨s₂, hs₂.1, hs₂.2.1, hs₂.2.2.1, hs₂.2.2.2, .inr rfl⟩

/-! ### The parts of `dir_modify` -/

section modify
variable {s : Cache} (h : Good s) {x : Ptr}
include h

theorem heals_not_mem (hq : s.heals x = true) :
    x ∉ s.arc.dircache ∧ cnidStart ≤ (s.arc.dir x).did := by
  unfold Cache.heals at hq
  rw [Bool.and_eq_true, decide_eq_true_eq] at hq
  refine ⟨fun hx => ?_, hq.2⟩
  rw [(h.queued_iff x).mpr hx] at hq
  cases hq.1

theorem modifyHeal_good {s' : Cache} (hg : s.heals x = true → (s.arc.dir x).arcGhost = false)
    (hne : (s.arc.dir x).did ≠ cnidInvalid) (he : modifyHeal x s = some s') :
    Good s' ∧ (x ∈ s'.arc.dircache ∨ s' = s ∧ ¬ cnidStart ≤ (s.arc.dir x).did) := by
  unfold modifyHeal at he
  split_ifs at he with hq
  · obtain ⟨hx, _⟩ := heals_not_mem h hq
    obtain ⟨hgood, hmem⟩ := dircacheAdd_good h hx (h.loose hx hne) (hg hq) he
    exact ⟨hgood, .inl hmem⟩
  · cases he
    refine ⟨h, ?_⟩
    by_cases hx : x ∈ s.arc.dircache
    · exact .inl hx
    · refine .inr ⟨rfl, fun hs => hq ?_⟩
      have hnq : s.queued x = false := by
        rw [Bool.eq_false_iff, Ne, h.queued_iff]
        exact hx
      simp [Cache.heals, hnq, hs]

omit h in
theorem renamed_eq (hn : needsReindex a d = false) : renamed a d = d := by
  unfold needsReindex at hn
  unfold renamed
  rw [Bool.or_eq_false_iff] at hn
  have h₁ : (if a.newPdid ≠ 0 then a.newPdid else d.pdid) = d.pdid := by
    have := hn.1
    simp only [Bool.and_eq_false_imp, decide_eq_true_eq, decide_eq_false_iff_not, not_not] at this
    split_ifs with h0
    · exact this h0
    · rfl
  have h₂ : a.newUname.getD d.uName = d.uName := by
    have := hn.2
    cases hu : a.newUname with
    | none => rfl
    | some =>
      rw [hu] at this
      simpa using this
  rw [h₁, h₂]

theorem modifyPath_good (hx : a.path = true → x ∈ s.arc.dircache) (he : modifyPath x a s = some r) :
    Good r.2 ∧ (r.1 = true → (r.2.arc.dir x).did = (s.arc.dir x).did) := by
  unfold modifyPath at he
  split_ifs at he with hp hj hn
  · cases he
    exact ⟨h, fun _ => rfl⟩
  · have htitle : (dropDidname x s).setDir x (renamed a (s.arc.dir x)) =
        retitle x (renamed a (s.arc.dir x)) s := rfl
    rw [htitle] at he
    cases hre : dircacheReindexDidname x a.insertFails (retitle x (renamed a (s.arc.dir x)) s) with
    | none =>
      rw [hre] at he
      cases he
    | some =>
      obtain ⟨s', hg, hm, hdir, hf, hr⟩ := dircacheReindexDidname_spec h (hx hp) hre
      have hslot : SameSlot (s'.arc.dir x) (renamed a (s.arc.dir x)) := by
        rw [hdir]
        exact ⟨rfl, rfl, rfl, rfl⟩
      rw [hre] at he
      rcases hr with rfl | rfl
      · cases he
        exact ⟨dirRemove_retitle hg hm hslot, fun hr => by cases hr⟩
      · cases he
        refine ⟨hg.retitle hm hslot hf, fun _ => ?_⟩
        have hdid := congrArg Dir.did (retitleArc_self x (renamed a (s.arc.dir x)) s'.arc)
        exact hdid
  · cases he
    have hset : s.setDir x (renamed a (s.arc.dir x)) = s := by
      rw [renamed_eq (Bool.eq_false_iff.mpr hn)]
      unfold Cache.setDir
      rw [update_eq_self]
    rw [hset]
    exact ⟨h, fun _ => rfl⟩
  · cases he
    exact ⟨h, fun _ => rfl⟩

theorem modifyStat_good (hne : (s.arc.dir x).did ≠ cnidInvalid)
    (hg : ∀ cnid, statOutcome x a s = .rekey cnid → (s.arc.dir x).arcGhost = false)
    (he : modifyStat x a s = some r) :
    Good r.2 ∧ (r.1 = true → x ∈ r.2.arc.dircache ∨ (r.2.arc.dir x).arcList = none) := by
  unfold modifyStat at he
  cases ho : statOutcome x a s with
  | keep =>
    rw [ho] at he
    cases he
    refine ⟨h, fun _ => ?_⟩
    by_cases hx : x ∈ s.arc.dircache
    · exact .inl hx
    · exact .inr (h.loose hx hne)
  | gone =>
    rw [ho] at he
    cases he
    exact ⟨dirRemove_good h x, fun hr => by cases hr⟩
  | rekey cnid =>
    rw [ho] at he
    obtain ⟨s', ha, rfl⟩ := Option.map_eq_some_iff.mp he
    have r := dircacheRemove_removed h x
    rw [dircacheRemove_dir h x hne] at ha
    obtain ⟨hgood, hmem⟩ := dircacheAdd_good r.good (r.not_mem h)
      (d := { s.arc.dir x with arcList := none, did := cnid }) rfl (hg cnid ho) ha
    exact ⟨hgood, fun _ => .inl hmem⟩

theorem dircachePromote_good (hx : x ∈ s.arc.dircache ∨ (s.arc.dir x).arcList = none) :
    Good (dircachePromote x s) := by
  cases h with
  | @arc a inv whole =>
    have p := dircachePromote_policy whole hx
    refine Good.arc ?_ p.whole
    rcases hx with hx | hx
    · exact (dircachePromote_inv inv hx).1
    · have he : Dircache.dircachePromote x a = a := by
        unfold Dircache.dircachePromote
        rw [show (a.dir x).arcList = none from hx]
      rw [he]
      exact inv
  | @lru q n a lru =>
    unfold dircachePromote
    simp only [Bool.false_eq_true, if_false]
    split_ifs with hq
    · have hp : (q.erase x ++ [x]).Perm q :=
        (perm_append_singleton x _).trans (perm_cons_erase hq).symm
      refine Good.lru { lru with nodup := hp.nodup_iff.mpr lru.nodup, mem := ?_, count := ?_ }
      · intro y
        rw [lru.mem, hp.mem_iff]
      · rw [lru.count, hp.length_eq]
    · exact Good.lru lru

theorem searchHit_good (hx : x ∈ s.arc.dircache) : Good (searchHit x s) := by
  cases h with
  | arc inv whole =>
    exact Good.arc (searchHit_inv inv hx).1 (searchHit_policy whole hx).whole
  | lru lru => exact Good.lru lru

omit h in
/-- The last part that ran, and whether it was the first one to return. -/
theorem andThen_some {r₀ : Option (Bool × Cache)} {f : Cache → Option (Bool × Cache)}
    (he : andThen r₀ f = some r) :
    (∃ s, r₀ = some (true, s) ∧ f s = some r) ∨ (r₀ = some r ∧ r.1 = false) := by
  obtain ⟨⟨b, s⟩, hr, he⟩ := Option.bind_eq_some_iff.mp he
  cases b with
  | false =>
    cases he
    exact .inr ⟨hr, rfl⟩
  | true => exact .inl ⟨s, hr, he⟩

/-- The parts of `dir_modify` before the stat. -/
theorem modifyHealPath_good (hl : (Op.modify x a).Legal s)
    (hg : s.heals x = true → (s.arc.dir x).arcGhost = false) (hne : (s.arc.dir x).did ≠ cnidInvalid)
    (he : andThen ((modifyHeal x s).map fun s => (true, s)) (modifyPath x a) = some r) :
    Good r.2 ∧ (r.1 = true → (r.2.arc.dir x).did ≠ cnidInvalid) ∧
      ∃ s₁, modifyHeal x s = some s₁ ∧ modifyPath x a s₁ = some r := by
  rcases andThen_some he with ⟨s₁, hh, hp⟩ | ⟨hh, hf⟩
  · obtain ⟨s₁', hh, heq⟩ := Option.map_eq_some_iff.mp hh
    cases heq
    obtain ⟨h₁, hx⟩ := modifyHeal_good h hg hne hh
    have hdid : (s₁.arc.dir x).did ≠ cnidInvalid := by
      rcases hx with hx | ⟨rfl, _⟩
      · have := (h₁.tables.valid x hx).did
        unfold cnidStart at this
        unfold cnidInvalid
        omega
      · exact hne
    have hpath : a.path = true → x ∈ s₁.arc.dircache := by
      intro ha
      rcases hx with hx | ⟨rfl, hs⟩
      · exact hx
      · exact (hl ha).resolve_right fun ho => ho.elim hne hs
    obtain ⟨h₂, hd₂⟩ := modifyPath_good h₁ hpath hp
    exact ⟨h₂, fun hr => by rw [hd₂ hr]; exact hdid, s₁, hh, hp⟩
  · obtain ⟨s₁', _, heq⟩ := Option.map_eq_some_iff.mp hh
    rw [← heq] at hf
    cases hf

/-- `dir_modify` of an entry that it gives to `dircache_add` only with its ghost flag clear. -/
theorem dirModify_good (hl : (Op.modify x a).Legal s) (hg : ¬ (Op.modify x a).AddsGhost s)
    {s' : Cache} (he : dirModify x a s = some s') : Good s' := by
  unfold dirModify at he
  split_ifs at he with hd
  · cases he
    exact h
  · have hheal : s.heals x = true → (s.arc.dir x).arcGhost = false := by
      intro hq
      rw [Bool.eq_false_iff]
      exact fun hf => hg ⟨hd, .inl ⟨hq, hf⟩⟩
    obtain ⟨r, hr, rfl⟩ := Option.map_eq_some_iff.mp he
    rcases andThen_some hr with ⟨s₂, hp, hst⟩ | ⟨hp, hf⟩
    · obtain ⟨h₂, hd₂, s₁, hh, hp⟩ := modifyHealPath_good h hl hheal hd hp
      have hrekey : ∀ cnid, statOutcome x a s₂ = .rekey cnid → (s₂.arc.dir x).arcGhost = false := by
        intro cnid ho
        rw [Bool.eq_false_iff]
        exact fun hf => hg ⟨hd, .inr ⟨s₁, s₂, cnid, hh, hp, ho, hf⟩⟩
      obtain ⟨h₃, hx₃⟩ := modifyStat_good h₂ (hd₂ rfl) hrekey hst
      split_ifs with hb
      · exact dircachePromote_good h₃ (hx₃ (Bool.and_eq_true_iff.mp hb).1)
      · exact h₃
    · rw [hf]
      exact (modifyHealPath_good h hl hheal hd hp).1

end modify

end Netatalk.DirIndex
