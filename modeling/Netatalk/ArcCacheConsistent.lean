import Netatalk.ArcCache
import Mathlib.Data.List.Nodup

/-! # Queues, counters and tables of the ARC cache

`Consistent` says that every queued entry is in one queue, the one its `arc_list` names, that
each counter is its queue's length and that the two tables hold exactly the queued entries.
Every operation keeps it (`exec_consistent`), and each comes with what it does to the four
counters: `Moved` and `Dropped` for one entry, `arcReplace_cases` for REPLACE. -/

namespace Netatalk.Dircache

open List Function

/-- The queues, the counters and the tables agree. -/
structure Consistent (s : Arc) : Prop where
  nodup : ∀ l, (s.queue l).Nodup
  listed : ∀ l x, x ∈ s.queue l → (s.dir x).arcList = some l
  ghost : ∀ x, x ∈ s.queue .b1 ∨ x ∈ s.queue .b2 → (s.dir x).arcGhost = true
  size : ∀ l, s.size l = (s.queue l).length
  nodupDircache : s.dircache.Nodup
  nodupDidname : s.indexDidname.Nodup
  dircache : ∀ x, x ∈ s.dircache ↔ ∃ l, x ∈ s.queue l
  didname : ∀ x, x ∈ s.indexDidname ↔ ∃ l, x ∈ s.queue l

theorem arcInit_consistent (c : ℕ) (dir : Ptr → Dir) : Consistent (arcInit c dir) := by
  constructor <;> simp [arcInit]

variable {d : Dir} {dst l src : ArcList} {s' : Arc} {v x : Ptr}

namespace Consistent

variable {s : Arc} (h : Consistent s)
include h

theorem unique {l' : ArcList} (hl : x ∈ s.queue l) (hl' : x ∈ s.queue l') : l = l' := by
  have := (h.listed l x hl).symm.trans (h.listed l' x hl')
  exact Option.some.inj this

theorem mem_of_arcList (hx : x ∈ s.dircache) (hl : (s.dir x).arcList = some l) : x ∈ s.queue l := by
  obtain ⟨l', hl'⟩ := (h.dircache x).mp hx
  have := (h.listed l' x hl').symm.trans hl
  rw [Option.some.inj this] at hl'
  exact hl'

theorem size_pos (hl : x ∈ s.queue l) : 0 < s.size l := by
  rw [h.size l]
  exact length_pos_of_mem hl

/-- A table that holds exactly the queued entries has as many nodes as the counters say. -/
theorem length_table {t : List Ptr} (hn : t.Nodup) (ht : ∀ x, x ∈ t ↔ ∃ l, x ∈ s.queue l) :
    t.length = s.size .t1 + s.size .t2 + s.size .b1 + s.size .b2 := by
  have disj : ∀ {l l'}, l ≠ l' → (s.queue l).Disjoint (s.queue l') := fun hne x hx hx' =>
    hne (h.unique hx hx')
  have hall : (s.queue .t1 ++ (s.queue .t2 ++ (s.queue .b1 ++ s.queue .b2))).Nodup := by
    simp only [nodup_append', disjoint_append_right]
    exact ⟨h.nodup _, ⟨h.nodup _, ⟨h.nodup _, h.nodup _, disj (by decide)⟩, disj (by decide),
      disj (by decide)⟩, disj (by decide), disj (by decide), disj (by decide)⟩
  have hp : t.Perm (s.queue .t1 ++ (s.queue .t2 ++ (s.queue .b1 ++ s.queue .b2))) := by
    rw [perm_ext_iff_of_nodup hn hall]
    intro x
    rw [ht x]
    constructor
    · rintro ⟨l, hl⟩
      cases l <;> simp [hl]
    · intro hx
      simp only [mem_append] at hx
      rcases hx with hx | hx | hx | hx
      exacts [⟨_, hx⟩, ⟨_, hx⟩, ⟨_, hx⟩, ⟨_, hx⟩]
  rw [hp.length_eq]
  simp only [length_append, h.size]
  omega

/-- The order of the queues and the fields that only steer the operations do not matter. -/
theorem congr (hq : ∀ l, (s'.queue l).Perm (s.queue l)) (hs : s'.size = s.size)
    (hd : s'.dircache = s.dircache) (hn : s'.indexDidname = s.indexDidname)
    (hdir : ∀ l x, x ∈ s.queue l →
      (s'.dir x).arcList = (s.dir x).arcList ∧ (s'.dir x).arcGhost = (s.dir x).arcGhost) :
    Consistent s' where
  nodup l := (hq l).nodup_iff.mpr (h.nodup l)
  listed l x hx := by
    have hx := (hq l).mem_iff.mp hx
    rw [(hdir l x hx).1]
    exact h.listed l x hx
  ghost x hx := by
    have hx := hx.imp (hq .b1).mem_iff.mp (hq .b2).mem_iff.mp
    rw [← h.ghost x hx]
    rcases hx with hx | hx
    exacts [(hdir _ x hx).2, (hdir _ x hx).2]
  size l := by rw [hs, (hq l).length_eq, h.size]
  nodupDircache := by rw [hd]; exact h.nodupDircache
  nodupDidname := by rw [hn]; exact h.nodupDidname
  dircache x := by rw [hd, h.dircache]; exact exists_congr fun l => (hq l).mem_iff.symm
  didname x := by rw [hn, h.didname]; exact exists_congr fun l => (hq l).mem_iff.symm

end Consistent

/-! ### One entry moves -/

/-- An entry has gone from one queue to the tail of another. -/
structure Moved (x : Ptr) (src dst : ArcList) (s s' : Arc) : Prop where
  queue : ∀ l, s'.queue l = if l = dst then (s.queue l).erase x ++ [x] else (s.queue l).erase x
  size : ∀ l, s'.size l =
    if l = src then s.size l - 1 else if l = dst then s.size l + 1 else s.size l
  dircache : s'.dircache = s.dircache
  didname : s'.indexDidname = s.indexDidname
  other : ∀ y, y ≠ x → s'.dir y = s.dir y
  listed : (s'.dir x).arcList = some dst
  ghost : dst = .b1 ∨ dst = .b2 → (s'.dir x).arcGhost = true

theorem moved_migrate (hdst : dst ≠ .b1 ∧ dst ≠ .b2) (s : Arc) :
    Moved x src dst s (migrate x src dst s) := by
  refine ⟨fun _ => rfl, fun _ => rfl, rfl, rfl, ?_, ?_, ?_⟩
  · exact fun y hy => update_of_ne hy _ _
  · simp [migrate]
  · exact fun h => absurd h (not_or.mpr hdst)

/-- The entry takes the flag that belongs to the list it goes to. -/
theorem moved_setGhost_migrate {ghost : Bool} (hdst : dst = .b1 ∨ dst = .b2 → ghost = true)
    (s : Arc) : Moved x src dst s (setGhost x ghost (migrate x src dst s)) := by
  refine ⟨fun _ => rfl, fun _ => rfl, rfl, rfl, ?_, ?_, ?_⟩
  · exact fun y hy => (update_of_ne hy _ _).trans (update_of_ne hy _ _)
  · simp [setGhost, migrate]
  · intro h
    simp [setGhost, hdst h]

variable {s : Arc}

theorem Moved.mem_queue (m : Moved x src dst s s') (h : Consistent s) (y : Ptr) (l : ArcList) :
    y ∈ s'.queue l ↔ if y = x then l = dst else y ∈ s.queue l := by
  rw [m.queue]
  split_ifs with hl hy hy
  · simp [hl, hy]
  · simp [hy]
  · subst hy
    simp [hl, (h.nodup l).mem_erase_iff]
  · rw [mem_erase_of_ne hy]

theorem Moved.consistent (m : Moved x src dst s s') (h : Consistent s) (hx : x ∈ s.queue src)
    (hne : src ≠ dst) : Consistent s' := by
  have hmem := m.mem_queue h
  have hout : ∀ l, l ≠ src → x ∉ s.queue l := fun l hl hx' => hl (h.unique hx' hx)
  have hindex : ∀ y, (∃ l, y ∈ s.queue l) ↔ ∃ l, y ∈ s'.queue l := by
    intro y
    simp only [hmem]
    by_cases hy : y = x
    · subst hy
      simp only [if_pos]
      exact ⟨fun _ => ⟨dst, rfl⟩, fun _ => ⟨src, hx⟩⟩
    · simp only [if_neg hy]
  refine ⟨?_, ?_, ?_, ?_, ?_, ?_, ?_, ?_⟩
  · intro l
    rw [m.queue l]
    split_ifs with hl
    · subst hl
      rw [erase_of_not_mem (hout l hne.symm)]
      exact nodup_append'.mpr ⟨h.nodup l, nodup_singleton x,
        disjoint_singleton.mpr (hout l hne.symm)⟩
    · exact (h.nodup l).erase x
  · intro l y hy
    rw [hmem] at hy
    split_ifs at hy with hyx
    · rw [hyx, hy]
      exact m.listed
    · rw [m.other y hyx]
      exact h.listed l y hy
  · intro y hy
    simp only [hmem] at hy
    split_ifs at hy with hyx
    · rw [hyx]
      exact m.ghost (hy.imp Eq.symm Eq.symm)
    · rw [m.other y hyx]
      exact h.ghost y hy
  · intro l
    rw [m.size l, m.queue l, h.size l]
    by_cases hs : l = src
    · subst hs
      rw [if_pos rfl, if_neg hne, length_erase_of_mem hx]
    · rw [erase_of_not_mem (hout l hs)]
      split_ifs
      · rw [length_append, length_singleton]
      · rfl
  · rw [m.dircache]
    exact h.nodupDircache
  · rw [m.didname]
    exact h.nodupDidname
  · intro y
    rw [m.dircache, h.dircache, hindex]
  · intro y
    rw [m.didname, h.didname, hindex]

/-! ### One entry goes -/

/-- An entry has left its queue and both tables. -/
structure Dropped (x : Ptr) (l : ArcList) (s s' : Arc) : Prop where
  queue : ∀ l', s'.queue l' = (s.queue l').erase x
  size : ∀ l', s'.size l' = if l' = l then s.size l' - 1 else s.size l'
  dircache : s'.dircache = s.dircache.erase x
  didname : s'.indexDidname = s.indexDidname.erase x
  other : ∀ y, y ≠ x → s'.dir y = s.dir y

theorem Dropped.consistent (d : Dropped x l s s') (h : Consistent s) (hx : x ∈ s.queue l) :
    Consistent s' := by
  have hmem : ∀ y l', y ∈ s'.queue l' ↔ y ≠ x ∧ y ∈ s.queue l' := by
    intro y l'
    rw [d.queue, (h.nodup l').mem_erase_iff]
  have hindex : ∀ y, (y ≠ x ∧ ∃ l, y ∈ s.queue l) ↔ ∃ l, y ∈ s'.queue l := by
    intro y
    simp only [hmem, exists_and_left]
  refine ⟨?_, ?_, ?_, ?_, ?_, ?_, ?_, ?_⟩
  · intro l'
    rw [d.queue]
    exact (h.nodup l').erase x
  · intro l' y hy
    obtain ⟨hyx, hy⟩ := (hmem y l').mp hy
    rw [d.other y hyx]
    exact h.listed l' y hy
  · intro y hy
    simp only [hmem, ← and_or_left] at hy
    rw [d.other y hy.1]
    exact h.ghost y hy.2
  · intro l'
    rw [d.size, d.queue, h.size]
    split_ifs with hl
    · subst hl
      rw [length_erase_of_mem hx]
    · rw [erase_of_not_mem fun hx' => hl (h.unique hx' hx)]
  · rw [d.dircache]
    exact h.nodupDircache.erase x
  · rw [d.didname]
    exact h.nodupDidname.erase x
  · intro y
    rw [d.dircache, h.nodupDircache.mem_erase_iff, h.dircache, hindex]
  · intro y
    rw [d.didname, h.nodupDidname.mem_erase_iff, h.didname, hindex]

theorem retire_dropped (l : ArcList) (x : Ptr) (s : Arc) : Dropped x l s (retire l x s) where
  queue _ := rfl
  size _ := rfl
  dircache := rfl
  didname := rfl
  other _ hy := update_of_ne hy _ _

/-! ### Evictions -/

/-- Two records of one entry, apart from its list and its ghost flag. -/
structure SameKey (d d' : Dir) : Prop where
  vid : d'.vid = d.vid
  did : d'.did = d.did
  pdid : d'.pdid = d.pdid
  uName : d'.uName = d.uName
  isFile : d'.isFile = d.isFile

theorem SameKey.refl (d : Dir) : SameKey d d := ⟨rfl, rfl, rfl, rfl, rfl⟩

theorem SameKey.trans {d' d'' : Dir} (k : SameKey d d') (k' : SameKey d' d'') : SameKey d d'' :=
  ⟨k'.vid.trans k.vid, k'.did.trans k.did, k'.pdid.trans k.pdid, k'.uName.trans k.uName,
    k'.isFile.trans k.isFile⟩

/-- The fields that steer the operations are the same, no entry has been added, and only entries
that have left the cache have been re-keyed. -/
structure Kept (s s' : Arc) : Prop where
  c : s'.c = s.c
  p : s'.p = s.p
  curdir : s'.curdir = s.curdir
  promotingGhost : s'.promotingGhost = s.promotingGhost
  indexed : ∀ y, y ∈ s'.dircache → y ∈ s.dircache
  keys : ∀ y, y ∈ s'.dircache ∨ y ∉ s.dircache → SameKey (s.dir y) (s'.dir y)

theorem Kept.refl (s : Arc) : Kept s s :=
  ⟨rfl, rfl, rfl, rfl, fun _ hy => hy, fun _ _ => .refl _⟩

theorem Kept.trans {s'' : Arc} (k : Kept s s') (k' : Kept s' s'') : Kept s s'' :=
  ⟨k'.c.trans k.c, k'.p.trans k.p, k'.curdir.trans k.curdir,
    k'.promotingGhost.trans k.promotingGhost, fun y hy => k.indexed y (k'.indexed y hy),
    fun y hy => (k.keys y (hy.imp_left (k'.indexed y))).trans
      (k'.keys y (hy.imp_right (mt (k.indexed y))))⟩

theorem retire_kept (h : Consistent s) (hx : x ∈ s.queue l) : Kept s (retire l x s) := by
  refine ⟨rfl, rfl, rfl, rfl, fun _ => mem_of_mem_erase, ?_⟩
  intro y hy
  have hyx : y ≠ x := by
    rintro rfl
    rcases hy with hy | hy
    · exact (h.nodupDircache.mem_erase_iff.mp hy).1 rfl
    · exact hy ((h.dircache y).mpr ⟨l, hx⟩)
  rw [(retire_dropped l x s).other y hyx]
  exact .refl _

theorem relist_sameKey (dir : Ptr → Dir) (y : Ptr) (l : Option ArcList) :
    SameKey (dir y) (Function.update dir x { dir x with arcList := l } y) := by
  by_cases hy : y = x
  · subst hy
    rw [update_self]
    exact ⟨rfl, rfl, rfl, rfl, rfl⟩
  · rw [update_of_ne hy]
    exact .refl _

theorem setGhost_migrate_kept (g : Bool) : Kept s (setGhost x g (migrate x src dst s)) := by
  refine ⟨rfl, rfl, rfl, rfl, fun _ hy => hy, ?_⟩
  intro y _
  by_cases hy : y = x
  · subst hy
    simp only [setGhost, migrate, update_self]
    exact ⟨rfl, rfl, rfl, rfl, rfl⟩
  · simp only [setGhost, migrate, update_of_ne hy]
    exact .refl _

theorem arcGhostTrimCandidate_some {q : List Ptr} {skip : Option Ptr} {g : Ptr} (hq : q.Nodup)
    (hg : arcGhostTrimCandidate q skip = some g) : g ∈ q ∧ some g ≠ skip := by
  cases q with
  | nil => cases hg
  | cons x =>
    unfold arcGhostTrimCandidate at hg
    simp only at hg
    split_ifs at hg with hs
    · have hgq := mem_of_head? hg
      refine ⟨mem_cons_of_mem x hgq, ?_⟩
      rw [← hs]
      intro hgx
      rw [Option.some.inj hgx] at hgq
      exact (nodup_cons.mp hq).1 hgq
    · cases hg
      exact ⟨mem_cons_self, hs⟩

/-- The ghost lists are full and the target list has a ghost to give up. -/
def Arc.trims (s : Arc) (target : ArcList) : Bool :=
  s.c ≤ s.size .b1 + s.size .b2 &&
    (arcGhostTrimCandidate (s.queue target) s.promotingGhost).isSome

section evictions
variable {s : Arc} (h : Consistent s)
include h

theorem arcEnsureGhostCapacity_spec (target : ArcList) :
    Consistent (arcEnsureGhostCapacity target s) ∧ Kept s (arcEnsureGhostCapacity target s) ∧
    (arcEnsureGhostCapacity target s).size target + (if s.trims target then 1 else 0) =
      s.size target ∧
    (∀ l, l ≠ target → (arcEnsureGhostCapacity target s).size l = s.size l) ∧
    (∀ l x, x ∈ s.queue l → l ≠ target ∨ s.promotingGhost = some x →
      x ∈ (arcEnsureGhostCapacity target s).queue l) := by
  unfold arcEnsureGhostCapacity
  by_cases hc : s.size .b1 + s.size .b2 < s.c
  · have ht : s.trims target = false := by simp [Arc.trims, Nat.not_le.mpr hc]
    rw [if_pos hc, ht]
    exact ⟨h, .refl s, rfl, fun _ _ => rfl, fun _ _ hx _ => hx⟩
  · rw [if_neg hc]
    cases hg : arcGhostTrimCandidate (s.queue target) s.promotingGhost with
    | none =>
      have ht : s.trims target = false := by simp [Arc.trims, hg]
      rw [ht]
      exact ⟨h, .refl s, rfl, fun _ _ => rfl, fun _ _ hx _ => hx⟩
    | some g =>
      obtain ⟨hmem, hskip⟩ := arcGhostTrimCandidate_some (h.nodup target) hg
      have ht : s.trims target = true := by simp [Arc.trims, hg, Nat.not_lt.mp hc]
      have hd := retire_dropped target g s
      have hpos := h.size_pos hmem
      refine ⟨hd.consistent h hmem, retire_kept h hmem, ?_, ?_, ?_⟩
      · rw [hd.size, if_pos rfl, ht, if_pos rfl]
        omega
      · intro l hl
        rw [hd.size, if_neg hl]
      · intro l x hx hor
        have hxg : x ≠ g := by
          rintro rfl
          rcases hor with hl | hp
          · exact hl (h.unique hx hmem)
          · exact hskip hp.symm
        exact (mem_erase_of_ne hxg).mpr hx

end evictions

/-- The ghost list that receives the entries of a cache list. -/
def ArcList.ghostOf : ArcList → ArcList
  | .t1 => .b1
  | .t2 => .b2
  | l => l

/-- One entry of T1 or T2 has become a ghost, which the ghost list may have made room for. -/
structure Evicted (src : ArcList) (s s' : Arc) : Prop where
  consistent : Consistent s'
  kept : Kept s s'
  size_src : s'.size src + 1 = s.size src
  size_dst : s'.size src.ghostOf + (if s.trims src.ghostOf then 1 else 0) = s.size src.ghostOf + 1
  size_other : ∀ l, l ≠ src → l ≠ src.ghostOf → s'.size l = s.size l
  promoting : ∀ l x, x ∈ s.queue l → s.promotingGhost = some x → l ≠ src → x ∈ s'.queue l

theorem arcEvictToGhost_spec (h : Consistent s) (hsrc : src ≠ src.ghostOf) (hv : v ∈ s.queue src) :
    Evicted src s (arcEvictToGhost v src src.ghostOf s) := by
  obtain ⟨h₁, hk, hdst, hother, hmem⟩ := arcEnsureGhostCapacity_spec h src.ghostOf
  have hv₁ := hmem src v hv (.inl hsrc)
  have hm : Moved v src src.ghostOf (arcEnsureGhostCapacity src.ghostOf s)
      (arcEvictToGhost v src src.ghostOf s) := moved_setGhost_migrate (fun _ => rfl) _
  have hpos := h₁.size_pos hv₁
  have hsz := hother src hsrc
  refine ⟨hm.consistent h₁ hv₁ hsrc, hk.trans (setGhost_migrate_kept true), ?_, ?_, ?_,
    ?_⟩
  · rw [hm.size, if_pos rfl]
    omega
  · rw [hm.size, if_neg hsrc.symm, if_pos rfl]
    omega
  · intro l hl hl'
    rw [hm.size, if_neg hl, if_neg hl', hother l hl']
  · intro l x hx hp hl
    rw [hm.mem_queue h₁, if_neg]
    · exact hmem l x hx (.inr hp)
    · rintro rfl
      exact hl (h.unique hx hv)

theorem victim_some (hv : s.victim l = some v) : v ∈ s.queue l ∧ s.curdir ≠ some v := by
  unfold Arc.victim at hv
  cases hq : s.queue l with
  | nil =>
    rw [hq] at hv
    cases hv
  | cons x q =>
    rw [hq] at hv
    unfold arcFindVictim at hv
    simp only at hv
    split_ifs at hv with h₀ hx
    · cases q with
      | nil => cases hv
      | cons =>
        simp only at hv
        split_ifs at hv with hy
        cases hv
        exact ⟨by simp, fun hc => hy (.inr hc.symm)⟩
    · cases hv
      exact ⟨by simp, fun hc => hx hc.symm⟩

theorem victim_none (h : Consistent s) (hv : s.victim l = none) :
    s.queue l = [] ∨ ∃ x, s.queue l = [x] ∧ s.curdir = some x := by
  have hsize := h.size l
  have hnd := h.nodup l
  unfold Arc.victim at hv
  cases hq : s.queue l with
  | nil => exact .inl rfl
  | cons x q =>
    rw [hq] at hv hsize hnd
    rw [length_cons] at hsize
    unfold arcFindVictim at hv
    simp only at hv
    rw [if_neg (by omega)] at hv
    split_ifs at hv with hx
    cases q with
    | nil => exact .inr ⟨x, rfl, hx.symm⟩
    | cons y q =>
      simp only at hv
      split_ifs at hv with hy
      rw [length_cons] at hsize
      rcases hy with hy | hy
      · omega
      · rw [← hx] at hy
        simp [Option.some.inj hy] at hnd

theorem victim_none_size (h : Consistent s) (hv : s.victim l = none) : s.size l ≤ 1 := by
  rw [h.size]
  rcases victim_none h hv with he | ⟨x, he, _⟩ <;> simp [he]

/-- REPLACE takes its entry from T1. -/
def Arc.evictsT1 (s : Arc) (inB2 : Bool) : Bool :=
  (s.tryT1First inB2 || (s.victim .t2).isNone) && (s.victim .t1).isSome

/-- REPLACE evicts an entry of T1 or one of T2, or the cache holds at most one entry. -/
theorem arcReplace_cases (h : Consistent s) (inB2 : Bool) :
    (s.evictsT1 inB2 = true ∧ Evicted .t1 s (arcReplace inB2 s).2) ∨
    (s.evictsT1 inB2 = false ∧ Evicted .t2 s (arcReplace inB2 s).2) ∨
    (s.evictsT1 inB2 = false ∧ (arcReplace inB2 s).2 = s ∧ s.size .t1 + s.size .t2 ≤ 1) := by
  have evict : ∀ {src v}, src ≠ src.ghostOf → s.victim src = some v →
      Evicted src s (arcEvictToGhost v src src.ghostOf s) := fun hsrc hv =>
    arcEvictToGhost_spec h hsrc (victim_some hv).1
  have blocked : s.victim .t1 = none → s.victim .t2 = none → s.size .t1 + s.size .t2 ≤ 1 := by
    intro h₁ h₂
    have hs₁ := victim_none_size h h₁
    have hs₂ := victim_none_size h h₂
    rcases victim_none h h₁ with he₁ | ⟨x, he₁, hc₁⟩
    · rw [h.size .t1, he₁, length_nil]
      omega
    · rcases victim_none h h₂ with he₂ | ⟨y, he₂, hc₂⟩
      · rw [h.size .t2, he₂]
        omega
      · -- the current directory would be in both queues
        have hxy : x = y := Option.some.inj (hc₁.symm.trans hc₂)
        have hx₁ : x ∈ s.queue .t1 := by simp [he₁]
        have hx₂ : x ∈ s.queue .t2 := by simp [he₂, hxy]
        cases h.unique hx₁ hx₂
  unfold Arc.evictsT1
  fun_cases arcReplace inB2 s with
  | case1 ht v hv => exact .inl ⟨by simp [ht, hv], evict (by decide) hv⟩
  | case2 _ hv₁ hv₂ | case5 _ hv₂ hv₁ => exact .inr (.inr ⟨by simp [hv₁], rfl, blocked hv₁ hv₂⟩)
  | case3 ht hv₁ v hv => exact .inr (.inl ⟨by simp [hv₁], evict (by decide) hv⟩)
  | case4 ht v hv => exact .inr (.inl ⟨by simp [ht, hv], evict (by decide) hv⟩)
  | case6 ht hv₂ v hv => exact .inl ⟨by simp [hv₂, hv], evict (by decide) hv⟩

/-! ### The other operations -/

theorem queued_iff : s.queued x = true ↔ ∃ l, x ∈ s.queue l := by
  unfold Arc.queued
  simp only [any_cons, any_nil, Bool.or_false, Bool.or_eq_true, decide_eq_true_eq]
  constructor
  · rintro (hx | hx | hx | hx)
    exacts [⟨_, hx⟩, ⟨_, hx⟩, ⟨_, hx⟩, ⟨_, hx⟩]
  · rintro ⟨l, hl⟩
    cases l <;> simp [hl]

theorem dircacheRemove_dircache : (dircacheRemove x s).dircache = s.dircache.erase x := by
  unfold dircacheRemove
  split_ifs
  · cases (s.dir x).arcList <;> rfl
  · rfl

section operations
variable {s : Arc} (h : Consistent s)
include h

/-- Putting an entry to the tail of its own list changes the order of that list only. -/
theorem requeue_perm {t : ArcList} (hx : x ∈ s.queue t) (l : ArcList) :
    (if l = t then (s.queue l).erase x ++ [x] else (s.queue l).erase x).Perm (s.queue l) := by
  split_ifs with hl
  · subst hl
    exact (perm_append_singleton x _).trans (perm_cons_erase hx).symm
  · rw [erase_of_not_mem fun hx' => hl (h.unique hx' hx)]

/-- A hit in T1 moves the entry to T2, one in T2 only reorders T2. -/
theorem arcCaseI_spec (hx : x ∈ s.queue .t1 ∨ x ∈ s.queue .t2) :
    Consistent (arcCaseI x s) ∧ Kept s (arcCaseI x s) ∧
    ((arcCaseI x s).size = s.size ∨ Moved x .t1 .t2 s (arcCaseI x s) ∧ x ∈ s.queue .t1) := by
  unfold arcCaseI
  split_ifs with hl
  · have hx₁ : x ∈ s.queue .t1 := by
      rcases hx with hx | hx
      · exact hx
      · rw [h.listed _ x hx] at hl
        cases hl
    have hm : Moved x .t1 .t2 s (migrate x .t1 .t2 s) := moved_migrate (by decide) s
    exact ⟨hm.consistent h hx₁ (by decide), ⟨rfl, rfl, rfl, rfl, fun _ hy => hy,
      fun y _ => relist_sameKey s.dir y _⟩, .inr ⟨hm, hx₁⟩⟩
  · have hx₂ : x ∈ s.queue .t2 := by
      rcases hx with hx | hx
      · exact absurd (h.listed _ x hx) hl
      · exact hx
    refine ⟨h.congr (requeue_perm h hx₂) rfl rfl rfl ?_, ⟨rfl, rfl, rfl, rfl, fun _ hy => hy,
      fun y _ => relist_sameKey s.dir y _⟩, .inl rfl⟩
    intro l y hy
    by_cases hyx : y = x
    · subst hyx
      simp [h.listed _ y hx₂]
    · simp only [update_of_ne hyx, and_self]

theorem dropLru_spec (l : ArcList) :
    Consistent (dropLru l s) ∧ Kept s (dropLru l s) ∧ (dropLru l s).size l = s.size l - 1 ∧
      ∀ l', l' ≠ l → (dropLru l s).size l' = s.size l' := by
  unfold dropLru
  cases hq : s.queue l with
  | nil =>
    refine ⟨h, .refl s, ?_, fun _ _ => rfl⟩
    rw [h.size, hq, length_nil]
  | cons g =>
    have hd := retire_dropped l g s
    have hg : g ∈ s.queue l := by simp [hq]
    refine ⟨hd.consistent h hg, retire_kept h hg, ?_, ?_⟩
    · exact (hd.size l).trans (if_pos rfl)
    · exact fun l' hl' => (hd.size l').trans (if_neg hl')

theorem dircacheRemove_spec : Consistent (dircacheRemove x s) ∧ Kept s (dircacheRemove x s) ∧
      ∀ l, (dircacheRemove x s).size l ≤ s.size l := by
  unfold dircacheRemove
  split_ifs with hq
  · obtain ⟨l, hl⟩ := (queued_iff).mp hq
    simp only [h.listed l x hl]
    have hd : Dropped x l s (unindex x { unqueue l x s with
        dir := Function.update (unqueue l x s).dir x
          { (unqueue l x s).dir x with arcList := none } }) :=
      ⟨fun _ => rfl, fun _ => rfl, rfl, rfl, fun y hy => update_of_ne hy _ _⟩
    refine ⟨hd.consistent h hl, ⟨rfl, rfl, rfl, rfl, fun _ => mem_of_mem_erase,
      fun y _ => relist_sameKey s.dir y none⟩, ?_⟩
    intro l'
    rw [hd.size]
    split_ifs <;> omega
  · have hx : ∀ l, x ∉ s.queue l := fun l hl => hq ((queued_iff).mpr ⟨l, hl⟩)
    have hx₁ : x ∉ s.dircache := fun hx' => ((h.dircache x).mp hx').elim hx
    have hx₂ : x ∉ s.indexDidname := fun hx' => ((h.didname x).mp hx').elim hx
    refine ⟨h.congr (fun _ => .refl _) rfl ?_ ?_ (fun _ _ _ => ⟨rfl, rfl⟩),
      ⟨rfl, rfl, rfl, rfl, fun _ => mem_of_mem_erase, fun _ _ => .refl _⟩,
      fun _ => Nat.le_refl _⟩
    · exact erase_of_not_mem hx₁
    · exact erase_of_not_mem hx₂

theorem dircacheDeferFree_consistent : Consistent (dircacheDeferFree x s) := by
  refine h.congr (fun _ => .refl _) rfl rfl rfl ?_
  intro l y _
  unfold dircacheDeferFree
  by_cases hy : y = x
  · subst hy
    simp
  · simp [update_of_ne hy]

/-- Retiring a duplicate shrinks the lists, if it does anything, and may take `curdir` along. -/
structure Expunged (s s' : Arc) : Prop where
  consistent : Consistent s'
  kept : Kept { s with curdir := s'.curdir } s'
  size : ∀ l, s'.size l ≤ s.size l

theorem dircacheExpungeDuplicate_spec {dup : Option Ptr} (hdup : ∀ x, dup = some x → x ∈ s.dircache)
    (took : Bool) : Expunged s (dircacheExpungeDuplicate dup (took, s)).2 := by
  have drop : ∀ {s : Arc}, Consistent s → ∀ x, x ∈ s.dircache →
      Expunged s (dircacheDeferFree x (dircacheRemove x s)) := by
    intro s h x hx
    obtain ⟨hc, hk, hs⟩ := dircacheRemove_spec h
    refine ⟨dircacheDeferFree_consistent hc, { hk with curdir := rfl, keys := ?_ },
      hs⟩
    intro y hy
    have hyx : y ≠ x := by
      rintro rfl
      rcases hy with hy | hy
      · have hy' : y ∈ s.dircache.erase y := dircacheRemove_dircache ▸ hy
        exact (h.nodupDircache.mem_erase_iff.mp hy').1 rfl
      · exact hy hx
    rw [show (dircacheDeferFree x (dircacheRemove x s)).dir y = (dircacheRemove x s).dir y from
      update_of_ne hyx _ _]
    exact hk.keys y hy
  unfold dircacheExpungeDuplicate
  cases dup with
  | none => exact ⟨h, .refl s, fun _ => Nat.le_refl _⟩
  | some dup =>
    simp only
    split_ifs
    · have h' : Consistent { s with curdir := none } :=
        h.congr (fun _ => .refl _) rfl rfl rfl fun _ _ _ => ⟨rfl, rfl⟩
      have hd := drop h' dup (hdup dup rfl)
      exact { hd with }
    · exact drop h dup (hdup dup rfl)

omit h in
theorem lookupDid_mem (hx : s.lookupDid d = some x) : x ∈ s.dircache :=
  mem_of_find?_eq_some hx

theorem lookupDidname_mem (hx : s.lookupDidname d = some x) : x ∈ s.dircache :=
  (h.dircache x).mpr ((h.didname x).mp (mem_of_find?_eq_some hx))

/-- The insertion of an entry that is in no queue. -/
theorem insert_consistent (hx : ∀ l, x ∉ s.queue l) (cur : Option Ptr) (count : ℕ → ℕ) :
    Consistent (arcCaseIvInsert x { s with
      dircache := x :: s.dircache
      indexDidname := x :: s.indexDidname
      curdir := cur
      vidEntryCount := count }) := by
  have hx₁ : x ∉ s.dircache := fun hx' => ((h.dircache x).mp hx').elim hx
  have hx₂ : x ∉ s.indexDidname := fun hx' => ((h.didname x).mp hx').elim hx
  have hmem : ∀ y l, (y ∈ if l = ArcList.t1 then s.queue l ++ [x] else s.queue l) ↔
      y ∈ s.queue l ∨ (y = x ∧ l = .t1) := by
    intro y l
    split_ifs with hl <;> simp [hl]
  have hindex : ∀ y, (y = x ∨ ∃ l, y ∈ s.queue l) ↔
      ∃ l, y ∈ s.queue l ∨ (y = x ∧ l = ArcList.t1) := by
    intro y
    constructor
    · rintro (rfl | ⟨l, hl⟩)
      exacts [⟨.t1, .inr ⟨rfl, rfl⟩⟩, ⟨l, .inl hl⟩]
    · rintro ⟨l, hl | ⟨rfl, _⟩⟩
      exacts [.inr ⟨l, hl⟩, .inl rfl]
  refine ⟨?_, ?_, ?_, ?_, ?_, ?_, ?_, ?_⟩
  · intro l
    simp only [arcCaseIvInsert]
    split_ifs
    · exact nodup_append'.mpr ⟨h.nodup l, nodup_singleton x,
        disjoint_singleton.mpr (hx l)⟩
    · exact h.nodup l
  · intro l y hy
    rcases (hmem y l).mp hy with hy | ⟨rfl, rfl⟩
    · have hyx : y ≠ x := fun he => hx l (he ▸ hy)
      simp only [arcCaseIvInsert, update_of_ne hyx]
      exact h.listed l y hy
    · simp [arcCaseIvInsert]
  · intro y hy
    have hyx : y ≠ x := by
      rintro rfl
      rcases hy with hy | hy
      exacts [hx _ hy, hx _ hy]
    simp only [arcCaseIvInsert, update_of_ne hyx]
    exact h.ghost y hy
  · intro l
    simp only [arcCaseIvInsert, h.size]
    split_ifs <;> simp
  · exact nodup_cons.mpr ⟨hx₁, h.nodupDircache⟩
  · exact nodup_cons.mpr ⟨hx₂, h.nodupDidname⟩
  · intro y
    simp only [arcCaseIvInsert, mem_cons, hmem, ← hindex, h.dircache]
  · intro y
    simp only [arcCaseIvInsert, mem_cons, hmem, ← hindex, h.didname]

end operations

end Netatalk.Dircache
