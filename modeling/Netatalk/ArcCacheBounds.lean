import Netatalk.ArcCacheConsistent

/-! # Size bounds of the ARC cache

`Bounds` are the bounds of the replacement policy on the four lists and on the target, and
`Inv` adds the agreement of lists, counters and tables.  Every operation returns and keeps `Inv`
(`exec_spec`).

The bound `|B1| + |B2| ≤ c` that `arc_verify_invariants` also asserts is kept by every operation
but one: an insertion that evicts from T1 while B1 is empty and B2 holds `c` ghosts
(`Op.Overfills`), where `arc_ensure_ghost_capacity` finds nothing to trim in the list it looks
at. -/

namespace Netatalk.Dircache

open Function

/-- The bounds of the policy on the four lists and the target. -/
structure Bounds (s : Arc) : Prop where
  cached : s.size .t1 + s.size .t2 ≤ s.c
  left : s.size .t1 + s.size .b1 ≤ s.c
  total : s.size .t1 + s.size .t2 + s.size .b1 + s.size .b2 ≤ 2 * s.c
  target : s.p ≤ s.c

/-- What holds between two operations on a cache of more than one entry. -/
structure Inv (s : Arc) : Prop where
  consistent : Consistent s
  bounds : Bounds s
  idle : s.promotingGhost = none
  room : 2 ≤ s.c

/-- The ghost lists together hold at most `c` entries. -/
def Arc.GhostsFit (s : Arc) : Prop := s.size .b1 + s.size .b2 ≤ s.c

variable {c : ℕ} {g x : Ptr} {s s' : Arc} {src : ArcList}

theorem arcInit_inv (hc : 2 ≤ c) (dir : Ptr → Dir) : Inv (arcInit c dir) where
  consistent := arcInit_consistent c dir
  bounds := by constructor <;> simp [arcInit]
  idle := rfl
  room := hc

theorem Inv.verify_iff (h : Inv s) : ArcVerifyInvariants s ↔ s.GhostsFit := by
  have hb := h.bounds
  have hslack : (if s.promotingGhost.isSome then 1 else 0) = 0 := by rw [h.idle]; rfl
  unfold Arc.GhostsFit
  constructor
  · intro hv
    have := hv.ghosts
    rw [hslack] at this
    exact this
  · intro hg
    refine ⟨hb.cached, by rw [hslack]; exact hg, hb.target, ?_, ?_⟩
    · have := hb.total
      omega
    · intro _ hfull
      have := hb.cached
      omega

/-! ### Evictions in numbers -/

theorem Evicted.sizes_t1 (e : Evicted .t1 s s') :
    s'.size .t1 + 1 = s.size .t1 ∧ s'.size .t2 = s.size .t2 ∧
    s'.size .b1 + (if s.trims .b1 then 1 else 0) = s.size .b1 + 1 ∧ s'.size .b2 = s.size .b2 :=
  ⟨e.size_src, e.size_other .t2 (by decide) (by decide), e.size_dst,
    e.size_other .b2 (by decide) (by decide)⟩

theorem Evicted.sizes_t2 (e : Evicted .t2 s s') :
    s'.size .t2 + 1 = s.size .t2 ∧ s'.size .t1 = s.size .t1 ∧
    s'.size .b2 + (if s.trims .b2 then 1 else 0) = s.size .b2 + 1 ∧ s'.size .b1 = s.size .b1 :=
  ⟨e.size_src, e.size_other .t1 (by decide) (by decide), e.size_dst,
    e.size_other .b1 (by decide) (by decide)⟩

/-- With no ghost held back, a full target list gives up a ghost unless it is empty. -/
theorem trims_iff (h : Consistent s) (hp : s.promotingGhost = none) (l : ArcList) :
    s.trims l = true ↔ s.c ≤ s.size .b1 + s.size .b2 ∧ 0 < s.size l := by
  unfold Arc.trims
  rw [hp, h.size l]
  cases s.queue l <;> simp [arcGhostTrimCandidate]

theorem arcReplace_sizes (h : Consistent s) (inB2 : Bool) :
    Consistent (arcReplace inB2 s).2 ∧ Kept s (arcReplace inB2 s).2 ∧
    (let s' := (arcReplace inB2 s).2
     (s'.size .t1 + 1 = s.size .t1 ∧ s'.size .t2 = s.size .t2 ∧ s.size .b1 ≤ s'.size .b1 ∧
        s'.size .b1 ≤ s.size .b1 + 1 ∧ s'.size .b2 = s.size .b2) ∨
     (s'.size .t2 + 1 = s.size .t2 ∧ s'.size .t1 = s.size .t1 ∧ s.size .b2 ≤ s'.size .b2 ∧
        s'.size .b2 ≤ s.size .b2 + 1 ∧ s'.size .b1 = s.size .b1) ∨
     (s'.size = s.size ∧ s.size .t1 + s.size .t2 ≤ 1)) := by
  rcases arcReplace_cases h inB2 with ⟨_, e⟩ | ⟨_, e⟩ | ⟨_, he, hle⟩
  · obtain ⟨h₁, h₂, h₃, h₄⟩ := e.sizes_t1
    refine ⟨e.consistent, e.kept, .inl ?_⟩
    split_ifs at h₃ <;> omega
  · obtain ⟨h₁, h₂, h₃, h₄⟩ := e.sizes_t2
    refine ⟨e.consistent, e.kept, .inr (.inl ?_)⟩
    split_ifs at h₃ <;> omega
  · rw [he]
    exact ⟨h, .refl s, .inr (.inr ⟨rfl, hle⟩)⟩

/-- REPLACE leaves the ghost that is being promoted in its list. -/
theorem arcReplace_promoting (h : Consistent s) (inB2 : Bool)
    (hsrc : src = .b1 ∨ src = .b2) (hg : g ∈ s.queue src) (hp : s.promotingGhost = some g) :
    g ∈ (arcReplace inB2 s).2.queue src := by
  rcases arcReplace_cases h inB2 with ⟨_, e⟩ | ⟨_, e⟩ | ⟨_, he, _⟩
  · refine e.promoting src g hg hp ?_
    rcases hsrc with rfl | rfl <;> decide
  · refine e.promoting src g hg hp ?_
    rcases hsrc with rfl | rfl <;> decide
  · rw [he]
    exact hg

/-! ### Hits -/

theorem promoteGhost_spec (h : Inv s)
    (hsrc : src = .b1 ∨ src = .b2) (hg : g ∈ s.queue src) (inB2 : Bool) {p : ℕ} (hp : p ≤ s.c) :
    Inv (promoteGhost g src inB2 p s) ∧ (promoteGhost g src inB2 p s).c = s.c ∧
      (s.GhostsFit → (promoteGhost g src inB2 p s).GhostsFit) := by
  have h₀ : Consistent { s with p := p, promotingGhost := some g } :=
    h.consistent.congr (fun _ => .refl _) rfl rfl rfl fun _ _ _ => ⟨rfl, rfl⟩
  obtain ⟨h₁, hk, hn⟩ := arcReplace_sizes h₀ inB2
  have hg₁ := arcReplace_promoting h₀ inB2 hsrc hg rfl
  unfold promoteGhost
  simp only
  generalize (arcReplace inB2 { s with p := p, promotingGhost := some g }).2 = s₁ at *
  have h₁' : Consistent { s₁ with promotingGhost := none } :=
    h₁.congr (fun _ => .refl _) rfl rfl rfl fun _ _ _ => ⟨rfl, rfl⟩
  generalize hs' : setGhost g false (migrate g src .t2 { s₁ with promotingGhost := none }) = s'
  have hm : Moved g src .t2 { s₁ with promotingGhost := none } s' := by
    rw [← hs']
    exact moved_setGhost_migrate (by simp) _
  have hpos : 0 < s₁.size src := h₁.size_pos hg₁
  have hne : src ≠ .t2 := by rcases hsrc with rfl | rfl <;> decide
  have hfinal := hm.consistent h₁' hg₁ hne
  obtain ⟨hcap, hpt, hidle⟩ : s'.c = s.c ∧ s'.p = p ∧ s'.promotingGhost = none := by
    rw [← hs']
    exact ⟨hk.c, hk.p, rfl⟩
  have hsz : ∀ l, s'.size l = if l = src then s₁.size l - 1 else
    if l = .t2 then s₁.size l + 1 else s₁.size l := hm.size
  have ht₁ : s'.size .t1 = s₁.size .t1 := by
    rw [hsz, if_neg (by rcases hsrc with rfl | rfl <;> decide), if_neg (by decide)]
  have ht₂ : s'.size .t2 = s₁.size .t2 + 1 := by rw [hsz, if_neg hne.symm, if_pos rfl]
  have hghosts : (s'.size .b1 + 1 = s₁.size .b1 ∧ s'.size .b2 = s₁.size .b2) ∨
      (s'.size .b1 = s₁.size .b1 ∧ s'.size .b2 + 1 = s₁.size .b2) := by
    rcases hsrc with rfl | rfl
    · left
      rw [hsz, hsz, if_pos rfl]
      exact ⟨by omega, rfl⟩
    · right
      rw [hsz, hsz, if_pos rfl]
      exact ⟨rfl, by omega⟩
  obtain ⟨hcached, hleft, htotal, _⟩ := h.bounds
  have hroom := h.room
  simp only at hn
  unfold Arc.GhostsFit
  refine ⟨⟨hfinal, ⟨?_, ?_, ?_, ?_⟩, hidle, ?_⟩, hcap, ?_⟩
  all_goals
    rcases hn with hn | hn | ⟨hn, hle⟩
    · omega
    · omega
    · simp only [hn] at *
      omega

theorem arcCaseIi_spec (h : Inv s) (hg : g ∈ s.queue .b1) :
    Inv (arcCaseIiAdaptAndReplace g s) ∧ (arcCaseIiAdaptAndReplace g s).c = s.c ∧
      (s.GhostsFit → (arcCaseIiAdaptAndReplace g s).GhostsFit) := by
  refine promoteGhost_spec h (.inl rfl) hg false ?_
  split_ifs <;> omega

theorem arcCaseIii_spec (h : Inv s) (hg : g ∈ s.queue .b2) :
    Inv (arcCaseIiiAdaptAndReplace g s) ∧ (arcCaseIiiAdaptAndReplace g s).c = s.c ∧
      (s.GhostsFit → (arcCaseIiiAdaptAndReplace g s).GhostsFit) := by
  have := h.bounds.target
  refine promoteGhost_spec h (.inr rfl) hg true ?_
  split_ifs <;> omega

theorem arcCaseI_inv (h : Inv s) (hx : x ∈ s.queue .t1 ∨ x ∈ s.queue .t2) :
    Inv (arcCaseI x s) ∧ (arcCaseI x s).c = s.c ∧ (s.GhostsFit → (arcCaseI x s).GhostsFit) := by
  obtain ⟨hc, hk, hs⟩ := arcCaseI_spec h.consistent hx
  obtain ⟨hcached, hleft, htotal, htarget⟩ := h.bounds
  have hcap := hk.c
  have hp := hk.p
  unfold Arc.GhostsFit
  have hnum : (arcCaseI x s).size .t1 + (arcCaseI x s).size .t2 = s.size .t1 + s.size .t2 ∧
      (arcCaseI x s).size .t1 ≤ s.size .t1 ∧ (arcCaseI x s).size .b1 = s.size .b1 ∧
      (arcCaseI x s).size .b2 = s.size .b2 := by
    rcases hs with hs | ⟨hm, hx₁⟩
    · simp [hs]
    · have hpos := h.consistent.size_pos hx₁
      have h₁ : (arcCaseI x s).size .t1 = s.size .t1 - 1 := hm.size .t1
      have h₂ : (arcCaseI x s).size .t2 = s.size .t2 + 1 := hm.size .t2
      exact ⟨by omega, by omega, hm.size .b1, hm.size .b2⟩
  refine ⟨⟨hc, ⟨?_, ?_, ?_, ?_⟩, hk.promotingGhost.trans h.idle, hcap.symm ▸ h.room⟩, hcap, ?_⟩
  all_goals omega

/-- A hit, through a search or a promotion, keeps the invariant and the ghost bound. -/
theorem dircachePromote_inv (h : Inv s) (hx : x ∈ s.dircache) :
    Inv (dircachePromote x s) ∧ (dircachePromote x s).c = s.c ∧
      (s.GhostsFit → (dircachePromote x s).GhostsFit) := by
  have mem : ∀ {l}, (s.dir x).arcList = some l → x ∈ s.queue l := h.consistent.mem_of_arcList hx
  unfold dircachePromote
  split
  · rename_i hl
    exact arcCaseI_inv h (.inl (mem hl))
  · rename_i hl
    exact arcCaseI_inv h (.inr (mem hl))
  · rename_i hl
    exact arcCaseIi_spec h (mem hl)
  · rename_i hl
    exact arcCaseIii_spec h (mem hl)
  · exact ⟨h, rfl, id⟩

theorem searchHit_eq (h : Consistent s) (hx : x ∈ s.dircache) :
    searchHit x s = dircachePromote x s ∨ searchHit x s = s := by
  obtain ⟨l, hl⟩ := (h.dircache x).mp hx
  have hlist := h.listed l x hl
  unfold searchHit dircachePromote
  rw [hlist]
  cases l with
  | t1 | t2 => cases (s.dir x).arcGhost <;> simp
  | b1 => simp [h.ghost x (.inl hl)]
  | b2 => simp [h.ghost x (.inr hl)]

theorem searchHit_inv (h : Inv s) (hx : x ∈ s.dircache) :
    Inv (searchHit x s) ∧ (searchHit x s).c = s.c ∧ (s.GhostsFit → (searchHit x s).GhostsFit) := by
  rcases searchHit_eq h.consistent hx with he | he
  · rw [he]
    exact dircachePromote_inv h hx
  · rw [he]
    exact ⟨h, rfl, id⟩

/-! ### Insertions -/

/-- Lists that have only shrunk are within the bounds. -/
theorem Inv.shrink (h : Inv s) (hc : Consistent s') (hcap : s'.c = s.c)
    (hp : s'.p = s.p) (hi : s'.promotingGhost = s.promotingGhost)
    (hs : ∀ l, s'.size l ≤ s.size l) : Inv s' ∧ (s.GhostsFit → s'.GhostsFit) := by
  obtain ⟨hcached, hleft, htotal, htarget⟩ := h.bounds
  have := hs .t1
  have := hs .t2
  have := hs .b1
  have := hs .b2
  unfold Arc.GhostsFit
  refine ⟨⟨hc, ⟨?_, ?_, ?_, ?_⟩, hi.trans h.idle, hcap.symm ▸ h.room⟩, ?_⟩
  all_goals omega

/-- The state in which making room sends an entry of T1 to an empty B1 beside a full B2. -/
def Arc.Overfills (s : Arc) : Prop :=
  s.size .b1 = 0 ∧ s.size .b2 = s.c ∧ s.size .t1 + s.size .t2 < s.c ∧ s.evictsT1 false = true

theorem arcReplace_room (h : Consistent s) (hc : 2 ≤ s.c) (hle : s.size .t1 + s.size .t2 ≤ s.c)
    (inB2 : Bool) : let s' := (arcReplace inB2 s).2
    s'.size .t1 + s'.size .t2 < s.c ∧ s'.size .t1 + s'.size .b1 ≤ s.size .t1 + s.size .b1 ∧
      s'.size .t1 + s'.size .t2 + s'.size .b1 + s'.size .b2 ≤
        s.size .t1 + s.size .t2 + s.size .b1 + s.size .b2 ∧
      s'.size .b1 + s'.size .b2 ≤ s.size .b1 + s.size .b2 + 1 := by
  obtain ⟨_, _, hn⟩ := arcReplace_sizes h inB2
  simp only at hn ⊢
  rcases hn with hn | hn | ⟨hn, hn'⟩
  · omega
  · omega
  · rw [hn]
    omega

/-- REPLACE keeps the ghost bound unless it evicts from T1 with B1 empty and B2 full. -/
theorem arcReplace_ghostsFit (h : Consistent s) (hi : s.promotingGhost = none) (hfit : s.GhostsFit)
    (hb₁ : s.size .b1 < s.c) : (arcReplace false s).2.GhostsFit ↔
      ¬ (s.size .b1 = 0 ∧ s.size .b2 = s.c ∧ s.evictsT1 false = true) := by
  unfold Arc.GhostsFit at *
  rcases arcReplace_cases h false with ⟨hev, e⟩ | ⟨hev, e⟩ | ⟨hev, he, _⟩
  · obtain ⟨_, _, h₃, h₄⟩ := e.sizes_t1
    have ht := trims_iff h hi .b1
    rw [e.kept.c]
    split_ifs at h₃ with htrim
    · have := ht.mp htrim
      omega
    · have := mt ht.mpr htrim
      simp only [hev, and_true]
      omega
  · obtain ⟨_, _, h₃, h₄⟩ := e.sizes_t2
    have ht := trims_iff h hi .b2
    rw [e.kept.c]
    split_ifs at h₃ with htrim
    · simp only [hev, Bool.false_eq_true, and_false, not_false_eq_true, iff_true]
      omega
    · have := mt ht.mpr htrim
      omega
  · rw [he]
    simp only [hev, Bool.false_eq_true, and_false, not_false_eq_true, iff_true]
    exact hfit

/-- There is room for an entry in T1 and in the tables, and the ghost bound survives unless the
state before overfills. -/
structure Roomy (s s' : Arc) : Prop where
  consistent : Consistent s'
  kept : Kept s s'
  cached : s'.size .t1 + s'.size .t2 < s.c
  left : s'.size .t1 + s'.size .b1 < s.c
  total : s'.size .t1 + s'.size .t2 + s'.size .b1 + s'.size .b2 < 2 * s.c
  ghosts : s.GhostsFit → (s'.GhostsFit ↔ ¬ s.Overfills)

theorem retire_roomy (h : Inv s) {v : Ptr} (hv : v ∈ s.queue .t1)
    (ht₁ : s.c ≤ s.size .t1) : Roomy s (retire .t1 v s) := by
  have hd := retire_dropped .t1 v s
  have hpos := h.consistent.size_pos hv
  obtain ⟨hcached, hleft, htotal, _⟩ := h.bounds
  have h₁ : (retire .t1 v s).size .t1 = s.size .t1 - 1 := (hd.size .t1).trans (if_pos rfl)
  have h₂ : ∀ l, l ≠ .t1 → (retire .t1 v s).size l = s.size l := fun l hl =>
    (hd.size l).trans (if_neg hl)
  have h₂₂ := h₂ .t2 (by decide)
  have h₂₃ := h₂ .b1 (by decide)
  have h₂₄ := h₂ .b2 (by decide)
  refine ⟨hd.consistent h.consistent hv, retire_kept h.consistent hv, by omega, by omega,
    by omega, ?_⟩
  intro hfit
  have hc : (retire .t1 v s).c = s.c := rfl
  unfold Arc.GhostsFit Arc.Overfills at *
  omega

/-- Dropping the oldest ghost of a list and then one cache entry makes room. -/
theorem dropLru_replace_roomy (h : Inv s) {l : ArcList} (hl : l = .b1 ∨ l = .b2)
    (hpos : 0 < s.size l) (hleft : l = .b1 ∨ s.size .t1 + s.size .b1 < s.c) (hno : ¬ s.Overfills) :
    Roomy s (arcReplace false (dropLru l s)).2 := by
  obtain ⟨hcached, hleft', htotal, _⟩ := h.bounds
  have hroom := h.room
  obtain ⟨h₀, hk, hb, ho⟩ := dropLru_spec h.consistent l
  have hc := hk.c
  obtain ⟨h₁, hk₁, _⟩ := arcReplace_sizes h₀ false
  have hc₁ := hk₁.c
  have ho₁ := ho .t1 (by rcases hl with rfl | rfl <;> decide)
  have ho₂ := ho .t2 (by rcases hl with rfl | rfl <;> decide)
  have hr := arcReplace_room h₀ (by omega) (by omega) false
  have hghosts : (dropLru l s).size .b1 + (dropLru l s).size .b2 + 1 = s.size .b1 + s.size .b2 ∧
      (dropLru l s).size .t1 + (dropLru l s).size .b1 < s.c := by
    rcases hl with rfl | rfl
    · have := ho .b2 (by decide)
      omega
    · have := ho .b1 (by decide)
      rcases hleft with hleft | hleft
      · cases hleft
      · omega
  refine ⟨h₁, hk.trans hk₁, by omega, by omega, by omega, ?_⟩
  intro hfit
  refine iff_of_true ?_ hno
  unfold Arc.GhostsFit at *
  omega

theorem arcCaseIvMakeRoom_spec (h : Inv s) : Roomy s (arcCaseIvMakeRoom s) := by
  have hcons := h.consistent
  obtain ⟨hcached, hleft, htotal, htarget⟩ := h.bounds
  have hroom := h.room
  fun_cases arcCaseIvMakeRoom s with
  | case1 l1 hl1 ht₁ =>
    refine dropLru_replace_roomy h (.inl rfl) (by omega) (.inl rfl) ?_
    unfold Arc.Overfills
    omega
  | case2 l1 hl1 ht₁ v hv => exact retire_roomy h (victim_some hv).1 (by omega)
  | case3 l1 hl1 ht₁ hv₁ _ hv | case4 l1 hl1 ht₁ hv₁ hv =>
    have := victim_none_size hcons hv₁
    omega
  | case5 l1 l2 hl1 hl =>
    have hl₁ : s.size .t1 + s.size .b1 < s.c := hl.1
    split_ifs with hfull
    · refine dropLru_replace_roomy h (.inr rfl) (by omega) (.inr hl₁) ?_
      unfold Arc.Overfills
      omega
    · obtain ⟨h₁, hk₁, _⟩ := arcReplace_sizes hcons false
      have hr := arcReplace_room hcons hroom hcached false
      refine ⟨h₁, hk₁, by omega, by omega, by omega, ?_⟩
      intro hfit
      rw [arcReplace_ghostsFit hcons h.idle hfit (by omega)]
      refine not_congr (and_congr_right fun hb₁ => and_congr_right fun hb₂ => ?_)
      rw [and_iff_right (by omega)]
  | case6 l1 l2 hl1 hl =>
    refine ⟨hcons, .refl s, by omega, by omega, by omega, ?_⟩
    intro hfit
    unfold Arc.GhostsFit Arc.Overfills at *
    omega

/-- Clearing the keys of a new entry only shrinks the cache. -/
theorem addExpunge_spec (h : Inv s) (hx : x ∉ s.dircache) (d : Dir) :
    Inv (addExpunge x d s).2 ∧ (addExpunge x d s).2.c = s.c ∧ x ∉ (addExpunge x d s).2.dircache ∧
      (s.GhostsFit → (addExpunge x d s).2.GhostsFit) := by
  have hxq : ∀ l, x ∉ s.queue l := fun l hl => hx ((h.consistent.dircache x).mpr ⟨l, hl⟩)
  have h₀ : Consistent { s with dir := update s.dir x d } := by
    refine h.consistent.congr (fun _ => .refl _) rfl rfl rfl ?_
    intro l y hy
    have hyx : y ≠ x := fun he => hxq l (he ▸ hy)
    simp [update_of_ne hyx]
  unfold addExpunge
  simp only
  have e₁ := dircacheExpungeDuplicate_spec h₀ (fun y => lookupDid_mem (d := d) (x := y)) false
  generalize dircacheExpungeDuplicate
    (Arc.lookupDid { s with dir := update s.dir x d } d)
    (false, { s with dir := update s.dir x d }) = s₁ at e₁ ⊢
  have e₂ := dircacheExpungeDuplicate_spec e₁.consistent
    (fun y => lookupDidname_mem (d := d) (x := y) e₁.consistent) s₁.1
  generalize dircacheExpungeDuplicate (s₁.2.lookupDidname d) s₁ = s₂ at e₂ ⊢
  have hc : s₂.2.c = s.c := e₂.kept.c.trans e₁.kept.c
  obtain ⟨hinv, hfit⟩ := h.shrink e₂.consistent hc (e₂.kept.p.trans e₁.kept.p)
    (e₂.kept.promotingGhost.trans e₁.kept.promotingGhost)
    (fun l => Nat.le_trans (e₂.size l) (e₁.size l))
  exact ⟨hinv, hc, fun hx' => hx (e₁.kept.indexed x (e₂.kept.indexed x hx')), hfit⟩

/-- An insertion keeps the invariant and never meets a full table. -/
structure Added (x : Ptr) (d : Dir) (s s' : Arc) : Prop where
  exec : dircacheAdd x d s = some s'
  inv : Inv s'
  c : s'.c = s.c
  roomy : Roomy (addExpunge x d s).2 (addRoom x d s)
  ghosts : s.GhostsFit → (s'.GhostsFit ↔ ¬ (addExpunge x d s).2.Overfills)
  size_t1 : s'.size .t1 = (addRoom x d s).size .t1 + 1
  size_other : ∀ l, l ≠ .t1 → s'.size l = (addRoom x d s).size l
  queued : x ∈ s'.queue .t1
  p : s'.p = (addRoom x d s).p
  curdir : (addExpunge x d s).1 = false → s'.curdir = (addRoom x d s).curdir
  dircache : s'.dircache = x :: (addRoom x d s).dircache
  keys : ∀ y, SameKey ((addRoom x d s).dir y) (s'.dir y)

theorem dircacheAdd_spec (h : Inv s) (hx : x ∉ s.dircache) (d : Dir) : ∃ s', Added x d s s' := by
  obtain ⟨h₀, hc₀, hx₀, hfit₀⟩ := addExpunge_spec h hx d
  have hr := arcCaseIvMakeRoom_spec h₀
  change Roomy (addExpunge x d s).2 (addRoom x d s) at hr
  have hx₁ : x ∉ (addRoom x d s).dircache := fun hx' => hx₀ (hr.kept.indexed x hx')
  have hxq : ∀ l, x ∉ (addRoom x d s).queue l := fun l hl =>
    hx₁ ((hr.consistent.dircache x).mpr ⟨l, hl⟩)
  have hlen := h.consistent.length_table h.consistent.nodupDircache h.consistent.dircache
  have hlen₁ := hr.consistent.length_table hr.consistent.nodupDircache hr.consistent.dircache
  have hlen₂ := hr.consistent.length_table hr.consistent.nodupDidname hr.consistent.didname
  have hc₁ : (addRoom x d s).c = (addExpunge x d s).2.c := hr.kept.c
  have htotal := h.bounds.total
  have htotal₁ := hr.total
  have hcached := hr.cached
  have hleft := hr.left
  obtain ⟨s', hs', heq⟩ : ∃ s', dircacheAdd x d s = some s' ∧ s' =
      arcCaseIvInsert x { addRoom x d s with
        dircache := x :: (addRoom x d s).dircache
        indexDidname := x :: (addRoom x d s).indexDidname
        curdir := if (addExpunge x d s).1 then (if d.isFile then none else some x)
          else (addRoom x d s).curdir
        vidEntryCount := update (addRoom x d s).vidEntryCount ((addRoom x d s).dir x).vid
          ((addRoom x d s).vidEntryCount ((addRoom x d s).dir x).vid + 1) } := by
    have hins : (addRoom x d s).dircache.length < 2 * (addRoom x d s).c ∧
        (addRoom x d s).indexDidname.length < 2 * (addRoom x d s).c := by omega
    unfold dircacheAdd hashInserts
    rw [if_pos (by omega), if_pos hins]
    refine ⟨_, rfl, ?_⟩
    cases (addExpunge x d s).1 <;> rfl
  have hsz₁ : s'.size .t1 = (addRoom x d s).size .t1 + 1 := by rw [heq]; rfl
  have hsz : ∀ l, l ≠ .t1 → s'.size l = (addRoom x d s).size l := by
    intro l hl
    rw [heq]
    exact if_neg hl
  have h₂ := hsz .t2 (by decide)
  have h₃ := hsz .b1 (by decide)
  have h₄ := hsz .b2 (by decide)
  have hcap : s'.c = (addRoom x d s).c := by rw [heq]; rfl
  have hp : s'.p = (addRoom x d s).p := by rw [heq]; rfl
  have hp₁ := hr.kept.p
  have htarget := h₀.bounds.target
  have hroom := h₀.room
  refine ⟨s', hs', ⟨?_, ⟨by omega, by omega, by omega, by omega⟩, ?_, by omega⟩, by omega, hr, ?_,
    hsz₁, hsz, ?_, hp, ?_, by rw [heq]; rfl, ?_⟩
  · rw [heq]
    exact insert_consistent hr.consistent hxq _ _
  · have hi : s'.promotingGhost = (addRoom x d s).promotingGhost := by rw [heq]; rfl
    rw [hi, hr.kept.promotingGhost, h₀.idle]
  · intro hfit
    rw [← hr.ghosts (hfit₀ hfit)]
    unfold Arc.GhostsFit
    rw [h₃, h₄, hcap]
  · rw [heq]
    simp [arcCaseIvInsert]
  · intro htook
    rw [heq]
    simp [arcCaseIvInsert, htook]
  · intro y
    rw [heq]
    exact relist_sameKey (addRoom x d s).dir y _

/-! ### Runs -/

/-- The insertion that `arc_ensure_ghost_capacity` makes no room for. -/
def Op.Overfills (s : Arc) : Op → Prop
  | .add x d => (addExpunge x d s).2.Overfills
  | _ => False

/-- Every operation succeeds and keeps the invariant; it keeps the ghost bound unless it
overfills. -/
theorem exec_spec (h : Inv s) {op : Op} (hl : op.Legal s) :
    ∃ s', exec s op = some s' ∧ Inv s' ∧ s'.c = s.c ∧
      (s.GhostsFit → (s'.GhostsFit ↔ ¬ op.Overfills s)) := by
  cases op with
  | add x d =>
    obtain ⟨s', ha⟩ := dircacheAdd_spec h hl d
    exact ⟨s', ha.exec, ha.inv, ha.c, ha.ghosts⟩
  | search =>
    obtain ⟨hi, hc, hg⟩ := searchHit_inv h hl
    exact ⟨_, rfl, hi, hc, fun hf => iff_of_true (hg hf) id⟩
  | promote =>
    obtain ⟨hi, hc, hg⟩ := dircachePromote_inv h hl
    exact ⟨_, rfl, hi, hc, fun hf => iff_of_true (hg hf) id⟩
  | remove x =>
    obtain ⟨hc, hk, hs⟩ := dircacheRemove_spec h.consistent
    obtain ⟨hi, hg⟩ := h.shrink hc hk.c hk.p hk.promotingGhost hs
    exact ⟨_, rfl, hi, hk.c, fun hf => iff_of_true (hg hf) id⟩
  | chdir x =>
    have hc : Consistent { s with curdir := x } :=
      h.consistent.congr (fun _ => .refl _) rfl rfl rfl fun _ _ _ => ⟨rfl, rfl⟩
    obtain ⟨hi, hg⟩ := h.shrink hc rfl rfl rfl fun _ => Nat.le_refl _
    exact ⟨_, rfl, hi, rfl, fun hf => iff_of_true (hg hf) id⟩

theorem Reachable.inv (hc : 2 ≤ c) {ok : Arc → Op → Prop}
    (hr : Reachable c ok s) : Inv s ∧ s.c = c := by
  induction hr with
  | init dir => exact ⟨arcInit_inv hc dir, rfl⟩
  | step op _ hl _ he ih =>
    obtain ⟨s', he', hi, hcap, _⟩ := exec_spec ih.1 hl
    rw [he'] at he
    cases he
    exact ⟨hi, hcap.trans ih.2⟩

end Netatalk.Dircache
