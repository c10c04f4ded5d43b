import Netatalk.DirIndexTables
import Netatalk.ArcCacheBounds

/-! # What the ARC policy does to the entries

`Whole` adds to the agreement of queues and tables that no entry of T1 or T2 has the ghost flag and
that an entry outside the cache is in no list or has no id any more.  Every function of the policy
keeps it and leaves the records outside the cache alone (`Policy`): an entry moves
(`Whole.moved`), goes (`Whole.dropped`) or stays where it is. -/

namespace Netatalk.DirIndex

open List Function Dircache

/-- The queues, the tables and the flags agree. -/
structure Whole (a : Arc) : Prop where
  consistent : Consistent a
  tables : Tables a
  live : ∀ x, x ∈ a.queue .t1 ∨ x ∈ a.queue .t2 → (a.dir x).arcGhost = false
  loose : ∀ x, x ∉ a.dircache → (a.dir x).did = cnidInvalid ∨ (a.dir x).arcList = none

/-- What a function of the policy does. -/
structure Policy (a a' : Arc) : Prop where
  whole : Whole a'
  indexed : ∀ x, x ∈ a'.dircache → x ∈ a.dircache
  outside : ∀ x, x ∉ a.dircache → a'.dir x = a.dir x

theorem Policy.refl {a : Arc} (h : Whole a) : Policy a a := ⟨h, fun _ hx => hx, fun _ _ => rfl⟩

variable {a' : Arc} {l src : ArcList} {x : Ptr}

theorem Policy.trans {a a'' : Arc} (p : Policy a a') (p' : Policy a' a'') : Policy a a'' :=
  ⟨p'.whole, fun x hx => p.indexed x (p'.indexed x hx), fun x hx =>
    (p'.outside x (mt (p.indexed x) hx)).trans (p.outside x hx)⟩

section primitives
variable {a : Arc} (h : Whole a)
include h

/-- The fields that only steer the policy do not matter, nor does the order of the queues. -/
theorem Whole.congr (hq : ∀ l, (a'.queue l).Perm (a.queue l)) (hs : a'.size = a.size)
    (hd : a'.dircache = a.dircache) (hn : a'.indexDidname = a.indexDidname)
    (hc : a'.vidEntryCount = a.vidEntryCount) (hdir : a'.dir = a.dir) : Whole a' where
  consistent := h.consistent.congr hq hs hd hn fun _ _ _ => by rw [hdir]; exact ⟨rfl, rfl⟩
  tables := h.tables.congr hd hn hc fun _ _ => by rw [hdir]; exact .refl _
  live x hx := by
    rw [hdir]
    exact h.live x (hx.imp (hq .t1).mem_iff.mp (hq .t2).mem_iff.mp)
  loose x hx := by
    rw [hd] at hx
    rw [hdir]
    exact h.loose x hx

theorem Whole.steer (hq : a'.queue = a.queue) (hs : a'.size = a.size)
    (hd : a'.dircache = a.dircache) (hn : a'.indexDidname = a.indexDidname)
    (hc : a'.vidEntryCount = a.vidEntryCount) (hdir : a'.dir = a.dir) : Policy a a' := by
  refine ⟨h.congr (fun l => ?_) hs hd hn hc hdir, fun x hx => hd ▸ hx, fun x _ => by rw [hdir]⟩
  rw [hq]

/-- An entry moves to a ghost list, or to T1 or T2 with its flag clear. -/
theorem Whole.moved {dst : ArcList} (m : Moved x src dst a a') (hx : x ∈ a.queue src)
    (hne : src ≠ dst) (hc : a'.vidEntryCount = a.vidEntryCount) (hk : SameKey (a.dir x) (a'.dir x))
    (hf : dst = .t1 ∨ dst = .t2 → (a'.dir x).arcGhost = false) : Policy a a' := by
  have hmem := m.mem_queue h.consistent
  have hxd : x ∈ a.dircache := (h.consistent.dircache x).mpr ⟨src, hx⟩
  refine ⟨⟨m.consistent h.consistent hx hne, ?_, ?_, ?_⟩, fun y hy => m.dircache ▸ hy, ?_⟩
  · refine h.tables.congr m.dircache m.didname hc ?_
    intro y _
    by_cases hy : y = x
    · rw [hy]
      exact hk
    · rw [m.other y hy]
      exact .refl _
  · intro y hy
    simp only [hmem] at hy
    split_ifs at hy with hyx
    · rw [hyx]
      exact hf (hy.imp Eq.symm Eq.symm)
    · rw [m.other y hyx]
      exact h.live y hy
  · intro y hy
    rw [m.dircache] at hy
    rw [m.other y fun he => hy (he ▸ hxd)]
    exact h.loose y hy
  · intro y hy
    exact m.other y fun he => hy (he ▸ hxd)

/-- An entry goes. -/
theorem Whole.dropped (d : Dropped x l a a') (hx : x ∈ a.queue l) (ht : Tables a')
    (hl : (a'.dir x).did = cnidInvalid ∨ (a'.dir x).arcList = none) : Policy a a' := by
  have hxd : x ∈ a.dircache := (h.consistent.dircache x).mpr ⟨l, hx⟩
  refine ⟨⟨d.consistent h.consistent hx, ht, ?_, ?_⟩, ?_, ?_⟩
  · intro y hy
    simp only [d.queue, (h.consistent.nodup _).mem_erase_iff, ← and_or_left] at hy
    rw [d.other y hy.1]
    exact h.live y hy.2
  · intro y hy
    by_cases hyx : y = x
    · rw [hyx]
      exact hl
    · rw [d.dircache, mem_erase_of_ne hyx] at hy
      rw [d.other y hyx]
      exact h.loose y hy
  · intro y hy
    rw [d.dircache] at hy
    exact mem_of_mem_erase hy
  · intro y hy
    exact d.other y fun he => hy (he ▸ hxd)

theorem retire_policy (hx : x ∈ a.queue l) : Policy a (retire l x a) := by
  refine h.dropped (retire_dropped l x a) hx ?_ (.inl ?_)
  · have h₁ : Tables (unqueue l x a) :=
      h.tables.congr rfl rfl rfl fun _ _ => .refl _
    refine (h₁.unindex x).outside ?_ _
    exact h.tables.nodupDircache.not_mem_erase
  · simp [retire, dircacheDeferFree]

end primitives

/-! ### REPLACE -/

section policy
variable {a : Arc} (h : Whole a)
include h

theorem arcEnsureGhostCapacity_policy (target : ArcList) :
    Policy a (arcEnsureGhostCapacity target a) := by
  fun_cases arcEnsureGhostCapacity target a with
  | case1 | case2 => exact .refl h
  | case3 _ g hg =>
    exact retire_policy h (arcGhostTrimCandidate_some (h.consistent.nodup target) hg).1

theorem arcEvictToGhost_policy {v : Ptr} (hsrc : src = .t1 ∨ src = .t2)
    (hv : v ∈ a.queue src) : Policy a (arcEvictToGhost v src src.ghostOf a) := by
  have hne : src ≠ src.ghostOf := by rcases hsrc with rfl | rfl <;> decide
  have p := arcEnsureGhostCapacity_policy h src.ghostOf
  have hv₁ := (arcEnsureGhostCapacity_spec h.consistent src.ghostOf).2.2.2.2 src v hv (.inl hne)
  have hm : Moved v src src.ghostOf (arcEnsureGhostCapacity src.ghostOf a)
      (arcEvictToGhost v src src.ghostOf a) := moved_setGhost_migrate (fun _ => rfl) _
  refine p.trans (p.whole.moved hm hv₁ hne rfl ?_ ?_)
  · simp only [arcEvictToGhost, setGhost, migrate, update_self]
    exact ⟨rfl, rfl, rfl, rfl, rfl⟩
  · rcases hsrc with rfl | rfl <;> simp [ArcList.ghostOf]

theorem arcReplace_policy (inB2 : Bool) : Policy a (arcReplace inB2 a).2 := by
  have evict : ∀ {src v}, src = .t1 ∨ src = .t2 → a.victim src = some v →
      Policy a (arcEvictToGhost v src src.ghostOf a) := fun hsrc hv =>
    arcEvictToGhost_policy h hsrc (victim_some hv).1
  fun_cases arcReplace inB2 a with
  | case1 _ v hv => exact evict (.inl rfl) hv
  | case2 | case5 => exact .refl h
  | case3 _ _ v hv => exact evict (.inr rfl) hv
  | case4 _ v hv => exact evict (.inr rfl) hv
  | case6 _ _ v hv => exact evict (.inl rfl) hv

/-! ### Hits -/

theorem arcCaseI_policy (hx : x ∈ a.queue .t1 ∨ x ∈ a.queue .t2) : Policy a (arcCaseI x a) := by
  rcases hx with hx | hx
  · have hl : (a.dir x).arcList = some .t1 := h.consistent.listed _ x hx
    have he : arcCaseI x a = migrate x .t1 .t2 a := if_pos hl
    rw [he]
    refine h.moved (moved_migrate (by decide) a) hx (by decide) rfl
      (relist_sameKey a.dir x _) fun _ => ?_
    simp only [migrate, update_self]
    exact h.live x (.inl hx)
  · have hl : (a.dir x).arcList = some .t2 := h.consistent.listed _ x hx
    have hne : (a.dir x).arcList ≠ some .t1 := by simp [hl]
    have hdir : (arcCaseI x a).dir = a.dir := by
      unfold arcCaseI
      rw [if_neg hne, ← hl]
      exact update_eq_self x a.dir
    have hrest : arcCaseI x a =
        { a with queue := (arcCaseI x a).queue, dir := (arcCaseI x a).dir } := by
      unfold arcCaseI
      rw [if_neg hne]
    have hperm : ∀ l, ((arcCaseI x a).queue l).Perm (a.queue l) := by
      intro l
      unfold arcCaseI
      rw [if_neg hne]
      exact requeue_perm h.consistent hx l
    rw [hrest]
    exact ⟨h.congr hperm rfl rfl rfl rfl hdir, fun _ hy => hy, fun y _ => congrFun hdir y⟩

theorem promoteGhost_policy {g : Ptr} (hsrc : src = .b1 ∨ src = .b2)
    (hg : g ∈ a.queue src) (inB2 : Bool) (p : ℕ) : Policy a (promoteGhost g src inB2 p a) := by
  have p₀ : Policy a { a with p := p, promotingGhost := some g } :=
    h.steer rfl rfl rfl rfl rfl rfl
  have p₁ := arcReplace_policy p₀.whole inB2
  have hg₁ := arcReplace_promoting p₀.whole.consistent inB2 hsrc hg rfl
  have p₂ : Policy (arcReplace inB2 { a with p := p, promotingGhost := some g }).2
      { (arcReplace inB2 { a with p := p, promotingGhost := some g }).2 with
        promotingGhost := none } := p₁.whole.steer rfl rfl rfl rfl rfl rfl
  have hm : Moved g src .t2 { (arcReplace inB2 { a with
      p := p, promotingGhost := some g }).2 with promotingGhost := none }
      (promoteGhost g src inB2 p a) := moved_setGhost_migrate (by simp) _
  have hne : src ≠ .t2 := by rcases hsrc with rfl | rfl <;> decide
  refine p₀.trans (p₁.trans (p₂.trans (p₂.whole.moved hm hg₁ hne rfl ?_ fun _ => ?_)))
  · simp only [promoteGhost, setGhost, migrate, update_self]
    exact ⟨rfl, rfl, rfl, rfl, rfl⟩
  · simp [promoteGhost, setGhost]

theorem dircachePromote_policy (hx : x ∈ a.dircache ∨ (a.dir x).arcList = none) :
    Policy a (Dircache.dircachePromote x a) := by
  rcases hx with hx | hx
  · have mem : ∀ {l}, (a.dir x).arcList = some l → x ∈ a.queue l :=
      h.consistent.mem_of_arcList hx
    fun_cases Dircache.dircachePromote x a with
    | case1 hl => exact arcCaseI_policy h (.inl (mem hl))
    | case2 hl => exact arcCaseI_policy h (.inr (mem hl))
    | case3 hl => exact promoteGhost_policy h (.inl rfl) (mem hl) _ _
    | case4 hl => exact promoteGhost_policy h (.inr rfl) (mem hl) _ _
    | case5 => exact .refl h
  · unfold Dircache.dircachePromote
    rw [hx]
    exact .refl h

theorem searchHit_policy (hx : x ∈ a.dircache) : Policy a (Dircache.searchHit x a) := by
  rcases searchHit_eq h.consistent hx with he | he
  · rw [he]
    exact dircachePromote_policy h (.inl hx)
  · rw [he]
    exact .refl h

/-! ### Room and removal -/

theorem dropLru_policy (l : ArcList) : Policy a (dropLru l a) := by
  unfold dropLru
  cases hq : a.queue l with
  | nil => exact .refl h
  | cons => exact retire_policy h (by simp [hq])

theorem arcCaseIvMakeRoom_policy : Policy a (arcCaseIvMakeRoom a) := by
  have drop : ∀ l, Policy a (arcReplace false (dropLru l a)).2 := fun l =>
    (dropLru_policy h l).trans (arcReplace_policy (dropLru_policy h l).whole false)
  fun_cases arcCaseIvMakeRoom a with
  | case1 => exact drop .b1
  | case2 _ _ _ v hv => exact retire_policy h (victim_some hv).1
  | case3 _ _ _ _ v hv => exact retire_policy h (victim_some hv).1
  | case4 | case6 => exact .refl h
  | case5 =>
    split_ifs
    · exact drop .b2
    · exact arcReplace_policy h false

theorem dircacheRemove_policy (x : Ptr) : Policy a (Dircache.dircacheRemove x a) := by
  unfold Dircache.dircacheRemove
  split_ifs with hq
  · obtain ⟨l, hl⟩ := (queued_iff).mp hq
    simp only [h.consistent.listed l x hl]
    refine h.dropped (l := l) ⟨fun _ => rfl, fun _ => rfl, rfl, rfl,
      fun y hy => update_of_ne hy _ _⟩ hl ?_ (.inr ?_)
    · apply Tables.unindex
      refine h.tables.congr rfl rfl rfl ?_
      intro y _
      exact relist_sameKey a.dir y none
    · simp [unindex]
  · have hx : ∀ l, x ∉ a.queue l := fun l hl => hq ((queued_iff).mpr ⟨l, hl⟩)
    have hx₁ : x ∉ a.dircache := fun hx' => ((h.consistent.dircache x).mp hx').elim hx
    have hx₂ : x ∉ a.indexDidname := fun hx' => ((h.consistent.didname x).mp hx').elim hx
    refine h.steer rfl rfl (erase_of_not_mem hx₁) (erase_of_not_mem hx₂) ?_ rfl
    simp [unindex, hx₁]

end policy

end Netatalk.DirIndex
