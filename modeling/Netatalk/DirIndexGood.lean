import Netatalk.DirIndexArc
import Mathlib.Data.List.Perm.Subperm

/-! # Removals and insertions in both modes

`Good` is what holds between two operations: in ARC the bounds of the policy and `Whole`, in the
LRU mode a queue of exactly the indexed entries.  A removal takes one entry out (`Removed`), the
lookups of an insertion leave its keys free (`Cleared`), and the insertion puts an entry in whose
ghost flag is clear (`dircacheAdd_good`). -/

namespace Netatalk.DirIndex

open List Function Option Dircache

/-- The LRU queue holds the indexed entries, and ARC has no part in the cache. -/
structure Lru (q : List Ptr) (n : ℕ) (a : Arc) : Prop where
  tables : Tables a
  nodup : q.Nodup
  mem : ∀ x, x ∈ a.dircache ↔ x ∈ q
  count : n = q.length
  fits : a.dircache.length ≤ a.c
  queue : ∀ l, a.queue l = []
  size : ∀ l, a.size l = 0
  arcList : ∀ x, (a.dir x).arcList = none
  arcGhost : ∀ x, (a.dir x).arcGhost = false

/-- What holds between two operations. -/
inductive Good : Cache → Prop
  | arc {a : Arc} (inv : Inv a) (whole : Whole a) : Good ⟨true, [], 0, a⟩
  | lru {q : List Ptr} {n : ℕ} {a : Arc} (lru : Lru q n a) : Good ⟨false, q, n, a⟩

theorem dircacheInit_good (enabled : Bool) {maxsize : ℕ} (hc : 2 ≤ maxsize) :
    Good (dircacheInit enabled maxsize) := by
  have ht : Tables (arcInit maxsize fun _ => blank) := by
    constructor <;> simp [arcInit]
  cases enabled with
  | false =>
    refine Good.lru ⟨ht, nodup_nil, ?_, rfl, ?_, ?_, ?_, ?_, ?_⟩ <;> simp [arcInit, blank]
  | true =>
    refine Good.arc (arcInit_inv hc _) ⟨arcInit_consistent _ _, ht, ?_, ?_⟩ <;>
      simp [arcInit, blank]

namespace Good

variable {s : Cache} (h : Good s)
include h

theorem tables : Tables s.arc := by
  cases h with
  | arc _ whole => exact whole.tables
  | lru lru => exact lru.tables

theorem queued_iff (x : Ptr) : s.queued x = true ↔ x ∈ s.arc.dircache := by
  cases h with
  | arc inv =>
    rw [inv.consistent.dircache]
    exact Dircache.queued_iff
  | lru lru =>
    rw [lru.mem]
    exact decide_eq_true_iff

theorem loose {x : Ptr} (hx : x ∉ s.arc.dircache) (hd : (s.arc.dir x).did ≠ cnidInvalid) :
    (s.arc.dir x).arcList = none := by
  cases h with
  | arc _ whole => exact (whole.loose x hx).resolve_left hd
  | lru lru => exact lru.arcList x

theorem plain (he : s.enabled = false) (x : Ptr) :
    (s.arc.dir x).arcList = none ∧ (s.arc.dir x).arcGhost = false := by
  cases h with
  | arc => cases he
  | lru lru => exact ⟨lru.arcList x, lru.arcGhost x⟩

theorem setCurdir (x : Option Ptr) : Good (s.setCurdir x) := by
  cases h with
  | @arc a inv whole =>
    have p : Policy a { a with curdir := x } := whole.steer rfl rfl rfl rfl rfl rfl
    exact Good.arc (inv.shrink p.whole.consistent rfl rfl rfl fun _ => le_rfl).1 p.whole
  | lru lru =>
    refine Good.lru { lru with tables := ?_ }
    exact lru.tables.congr rfl rfl rfl fun _ _ => .refl _

/-- The record of an entry outside the cache changes. -/
theorem setDir {x : Ptr} (hx : x ∉ s.arc.dircache) {d : Dir}
    (hd : d.did = cnidInvalid ∨ d.arcList = none)
    (hp : s.enabled = false → d.arcList = none ∧ d.arcGhost = false) : Good (s.setDir x d) := by
  cases h with
  | @arc a inv whole =>
    have hne : ∀ {y}, y ∈ a.dircache → y ≠ x := fun hy he => hx (he ▸ hy)
    have hc : Consistent { a with dir := update a.dir x d } := by
      refine inv.consistent.congr (fun _ => .refl _) rfl rfl rfl ?_
      intro l y hy
      simp only [update_of_ne (hne ((inv.consistent.dircache y).mpr ⟨l, hy⟩)), and_self]
    refine Good.arc (inv.shrink hc rfl rfl rfl fun _ => le_rfl).1
      ⟨hc, whole.tables.outside hx d, ?_, ?_⟩
    · intro y hy
      have hyd : y ∈ a.dircache := by
        rcases hy with hy | hy
        exacts [(inv.consistent.dircache y).mpr ⟨_, hy⟩, (inv.consistent.dircache y).mpr ⟨_, hy⟩]
      simp only [update_of_ne (hne hyd)]
      exact whole.live y hy
    · intro y hy
      by_cases hyx : y = x
      · simp only [hyx, update_self]
        exact hd
      · simp only [update_of_ne hyx]
        exact whole.loose y hy
  | @lru q n a lru =>
    have hdir : ∀ y, (update a.dir x d y).arcList = none ∧
        (update a.dir x d y).arcGhost = false := by
      intro y
      by_cases hyx : y = x
      · rw [hyx, update_self]
        exact hp rfl
      · rw [update_of_ne hyx]
        exact ⟨lru.arcList y, lru.arcGhost y⟩
    exact Good.lru { lru with
      tables := lru.tables.outside hx d, arcList := fun y => (hdir y).1
      arcGhost := fun y => (hdir y).2 }

end Good

/-! ### One entry goes -/

/-- An entry has left the cache. -/
structure Removed (x : Ptr) (s s' : Cache) : Prop where
  good : Good s'
  enabled : s'.enabled = s.enabled
  c : s'.arc.c = s.arc.c
  dircache : s'.arc.dircache = s.arc.dircache.erase x
  other : ∀ y, y ≠ x → s'.arc.dir y = s.arc.dir y

variable {K : Type} {a a' : Arc} {m n : ℕ} {q : List Ptr} {s' : Cache}
  {s : Cache} {x : Ptr} {d : Dir}

theorem Removed.not_mem (r : Removed x s s') (h : Good s) : x ∉ s'.arc.dircache := by
  rw [r.dircache]
  exact h.tables.nodupDircache.not_mem_erase

/-- The record an entry has once it is out of the cache. -/
theorem arc_dircacheRemove_dir (x : Ptr) (a : Arc) :
    (∀ y, y ≠ x → (Dircache.dircacheRemove x a).dir y = a.dir y) ∧
      (Dircache.dircacheRemove x a).dir x =
        { a.dir x with arcList := if a.queued x then none else (a.dir x).arcList } := by
  unfold Dircache.dircacheRemove
  by_cases hq : a.queued x = true
  · rw [if_pos hq, if_pos hq]
    cases (a.dir x).arcList with
    | none | some => exact ⟨fun y hy => update_of_ne hy _ _, update_self _ _ _⟩
  · rw [if_neg hq, if_neg hq]
    exact ⟨fun _ _ => rfl, rfl⟩

section removal
variable {s : Cache} (h : Good s) (x : Ptr)
include h

theorem dircacheRemove_removed : Removed x s (dircacheRemove x s) := by
  cases h with
  | @arc a inv whole =>
    obtain ⟨hc, hk, hs⟩ := dircacheRemove_spec inv.consistent
    exact ⟨Good.arc (inv.shrink hc hk.c hk.p hk.promotingGhost hs).1
      (dircacheRemove_policy whole x).whole, rfl, hk.c, dircacheRemove_dircache,
      (arc_dircacheRemove_dir x a).1⟩
  | @lru q n a lru =>
    refine ⟨Good.lru ⟨lru.tables.unindex x, lru.nodup.erase x, ?_, ?_, ?_, lru.queue, lru.size,
      lru.arcList, lru.arcGhost⟩, rfl, rfl, rfl, fun _ _ => rfl⟩
    · intro y
      simp only [unindex, lru.tables.nodupDircache.mem_erase_iff, lru.nodup.mem_erase_iff,
        lru.mem]
    · rw [lru.count, length_erase]
    · exact length_erase_le.trans lru.fits

theorem dircacheRemove_dir (hd : (s.arc.dir x).did ≠ cnidInvalid) :
    (dircacheRemove x s).arc.dir x = { s.arc.dir x with arcList := none } := by
  have hq := h.queued_iff x
  have hloose := h.loose (x := x)
  cases h with
  | @arc a inv whole =>
    refine (arc_dircacheRemove_dir x a).2.trans ?_
    split_ifs with hx
    · rfl
    · rw [hloose (mt hq.mpr hx) hd]
  | @lru q n a lru =>
    change a.dir x = { a.dir x with arcList := none }
    rw [← lru.arcList x]

theorem Removed.free (r : Removed x s s') :
    Removed x s { s' with arc := dircacheDeferFree x s'.arc } := by
  refine { r with
    good := r.good.setDir (r.not_mem h) (.inl rfl) (fun he => r.good.plain he x), other := ?_ }
  intro y hy
  exact (update_of_ne hy _ _).trans (r.other y hy)

theorem expunge_removed (took : Bool) :
    Removed x s (dircacheExpungeDuplicate (some x) (took, s)).2 := by
  unfold dircacheExpungeDuplicate
  dsimp only
  split_ifs
  · have r := (dircacheRemove_removed (h.setCurdir none) x).free (h.setCurdir none) x
    exact { r with }
  · exact (dircacheRemove_removed h x).free h x

theorem dirRemove_good : Good (dirRemove x s) := by
  unfold dirRemove
  split_ifs with hd
  · exact h
  · dsimp only
    have r := dircacheRemove_removed h x
    split_ifs
    · have r' : Removed x s ((dircacheRemove x s).setCurdir none) :=
        { r with good := r.good.setCurdir none }
      exact (r'.free h x).good
    · exact (r.free h x).good

end removal

/-! ### The keys of a new entry -/

/-- Entries have left the cache, and the records of the others are as they were. -/
structure Shrunk (s s' : Cache) : Prop where
  good : Good s'
  enabled : s'.enabled = s.enabled
  c : s'.arc.c = s.arc.c
  indexed : ∀ x, x ∈ s'.arc.dircache → x ∈ s.arc.dircache
  dir : ∀ x, x ∈ s'.arc.dircache ∨ x ∉ s.arc.dircache → s'.arc.dir x = s.arc.dir x

theorem Shrunk.refl (h : Good s) : Shrunk s s :=
  ⟨h, rfl, rfl, fun _ hx => hx, fun _ _ => rfl⟩

theorem Shrunk.trans {s s'' : Cache} (r : Shrunk s s') (r' : Shrunk s' s'') : Shrunk s s'' :=
  ⟨r'.good, r'.enabled.trans r.enabled, r'.c.trans r.c,
    fun x hx => r.indexed x (r'.indexed x hx), fun x hx =>
      (r'.dir x (hx.imp_right (mt (r.indexed x)))).trans (r.dir x (hx.imp_left (r'.indexed x)))⟩

theorem Shrunk.free {key : Dir → K} {k : K} (r : Shrunk s s') (hf : Free key s.arc k) :
    Free key s'.arc k := by
  intro y hy
  rw [r.dir y (.inl hy)]
  exact hf y (r.indexed y hy)

theorem Removed.shrunk (r : Removed x s s') (h : Good s) (hx : x ∈ s.arc.dircache) :
    Shrunk s s' := by
  refine ⟨r.good, r.enabled, r.c, ?_, ?_⟩
  · intro y hy
    rw [r.dircache] at hy
    exact mem_of_mem_erase hy
  · intro y hy
    apply r.other
    rintro rfl
    exact hy.elim (r.not_mem h) fun hy => hy hx

/-- The expunged entry was the only one with the key. -/
theorem Removed.frees {key : Dir → K} {k : K} (r : Removed x s s') (h : Good s)
    (hk : ∀ y ∈ s.arc.dircache, key (s.arc.dir y) = k → y = x) : Free key s'.arc k := by
  intro y hy he
  have hyx : y ≠ x := fun hyx => r.not_mem h (hyx ▸ hy)
  rw [r.dircache] at hy
  rw [r.other y hyx] at he
  exact hyx (hk y (mem_of_mem_erase hy) he)

theorem expunge_shrunk {key : Dir → K} {k : K} {found : Option Ptr} (h : Good s) (took : Bool)
    (hf : Finds key s.arc k found) : Shrunk s (dircacheExpungeDuplicate found (took, s)).2 ∧
      Free key (dircacheExpungeDuplicate found (took, s)).2.arc k := by
  rcases hf with ⟨rfl, hf⟩ | ⟨x, hx, rfl, hk⟩
  · exact ⟨.refl h, hf⟩
  · have r := expunge_removed h x took
    exact ⟨r.shrunk h hx, r.frees h hk⟩

/-- The cache is ready for the entry `d` at `x`. -/
structure Cleared (x : Ptr) (d : Dir) (s : Cache) : Prop where
  good : Good s
  not_mem : x ∉ s.arc.dircache
  dir : s.arc.dir x = d
  did : Free didKey s.arc (didKey d)
  name : Free nameKey s.arc (nameKey d)

theorem Cleared.shrunk (c : Cleared x d s) (r : Shrunk s s') : Cleared x d s' :=
  ⟨r.good, mt (r.indexed x) c.not_mem, (r.dir x (.inr c.not_mem)).trans c.dir, r.free c.did,
    r.free c.name⟩

theorem addExpunge_cleared (h : Good s) (hx : x ∉ s.arc.dircache) (hl : d.arcList = none)
    (hg : s.enabled = false → d.arcGhost = false) :
    Cleared x d (addExpunge x d s).2 ∧ (addExpunge x d s).2.enabled = s.enabled ∧
      (addExpunge x d s).2.arc.c = s.arc.c := by
  have h₀ : Good (s.setDir x d) := h.setDir hx (.inr hl) fun he => ⟨hl, hg he⟩
  obtain ⟨r₁, f₁⟩ := expunge_shrunk h₀ false (h₀.tables.finds_lookupDid d)
  unfold addExpunge
  dsimp only
  generalize dircacheExpungeDuplicate ((s.setDir x d).arc.lookupDid d) (false, s.setDir x d) = s₁
    at r₁ f₁ ⊢
  obtain ⟨r₂, f₂⟩ := expunge_shrunk r₁.good s₁.1 (r₁.good.tables.finds_lookupDidname d)
  have r := r₁.trans r₂
  refine ⟨⟨r₂.good, fun hx' => hx (r.indexed x hx'), ?_, r₂.free f₁, f₂⟩, r.enabled, r.c⟩
  exact (r.dir x (.inr hx)).trans (update_self (β := fun _ => Dir) x d s.arc.dir)

/-! ### Insertions -/

/-- An insertion that returns has put the entry into the tables and into T1. -/
theorem arc_dircacheAdd_some (he : Dircache.dircacheAdd x d a = some a') :
    ∃ cur, a' = arcCaseIvInsert x { Dircache.addRoom x d a with
      dircache := x :: (Dircache.addRoom x d a).dircache
      indexDidname := x :: (Dircache.addRoom x d a).indexDidname
      vidEntryCount := update (Dircache.addRoom x d a).vidEntryCount
        ((Dircache.addRoom x d a).dir x).vid
        ((Dircache.addRoom x d a).vidEntryCount ((Dircache.addRoom x d a).dir x).vid + 1)
      curdir := cur } := by
  unfold Dircache.dircacheAdd at he
  by_cases hlen : a.dircache.length ≤ 2 * a.c
  swap
  · rw [if_neg hlen] at he
    cases he
  rw [if_pos hlen] at he
  obtain ⟨a₁, ha, rfl⟩ := map_eq_some_iff.mp he
  unfold hashInserts at ha
  split_ifs at ha
  cases ha
  cases (Dircache.addExpunge x d a).1 <;> exact ⟨_, rfl⟩

/-- In ARC the functions of both modes are the ones of the ARC cache. -/
theorem arc_expunge (dup : Option Ptr) (took : Bool) (a : Arc) :
    dircacheExpungeDuplicate dup (took, ⟨true, [], 0, a⟩) =
      ((Dircache.dircacheExpungeDuplicate dup (took, a)).1,
        ⟨true, [], 0, (Dircache.dircacheExpungeDuplicate dup (took, a)).2⟩) := by
  cases dup with
  | none => rfl
  | some =>
    unfold dircacheExpungeDuplicate Dircache.dircacheExpungeDuplicate
    dsimp only
    split_ifs <;> rfl

theorem arc_addExpunge (x : Ptr) (d : Dir) (a : Arc) :
    (addExpunge x d ⟨true, [], 0, a⟩).2 = ⟨true, [], 0, (Dircache.addExpunge x d a).2⟩ := by
  unfold addExpunge Dircache.addExpunge Cache.setDir
  dsimp only
  rw [arc_expunge]
  rw [arc_expunge]

/-- The entry in T1 of a whole cache. -/
theorem Whole.insert (h : Whole a) (hx : x ∉ a.dircache) (hdir : a.dir x = d)
    (hg : d.arcGhost = false) (hv : Valid d) (hd : Free didKey a (didKey d))
    (hn : Free nameKey a (nameKey d)) (cur : Option Ptr) : Whole (arcCaseIvInsert x { a with
      dircache := x :: a.dircache
      indexDidname := x :: a.indexDidname
      vidEntryCount :=
        update a.vidEntryCount (a.dir x).vid (a.vidEntryCount (a.dir x).vid + 1)
      curdir := cur }) := by
  subst hdir
  have hq : ∀ l, x ∉ a.queue l := fun l hl => hx ((h.consistent.dircache x).mpr ⟨l, hl⟩)
  refine ⟨insert_consistent h.consistent hq _ _, ?_, ?_, ?_⟩
  · refine (h.tables.insert hx hv hd hn).congr rfl rfl rfl ?_
    intro y _
    exact relist_sameKey a.dir y _
  · intro y hy
    by_cases hyx : y = x
    · simp only [arcCaseIvInsert, hyx, update_self]
      exact hg
    · simp only [arcCaseIvInsert, update_of_ne hyx]
      apply h.live y
      simpa [arcCaseIvInsert, hyx] using hy
  · intro y hy
    have hy' : y ≠ x ∧ y ∉ a.dircache := by simpa [arcCaseIvInsert] using hy
    simp only [arcCaseIvInsert, update_of_ne hy'.1]
    exact h.loose y hy'.2

/-- The cache that ARC inserts a new entry into. -/
theorem arc_addRoom_cleared (inv : Inv a) (whole : Whole a) (hx : x ∉ a.dircache)
    (hl : d.arcList = none) :
    Whole (Dircache.addRoom x d a) ∧ x ∉ (Dircache.addRoom x d a).dircache ∧
      (Dircache.addRoom x d a).dir x = d ∧ Free didKey (Dircache.addRoom x d a) (didKey d) ∧
      Free nameKey (Dircache.addRoom x d a) (nameKey d) := by
  obtain ⟨c, _⟩ := addExpunge_cleared (Good.arc inv whole) hx hl fun he => by cases he
  rw [arc_addExpunge] at c
  cases c.good with
  | arc inv₁ whole₁ =>
    have p : Policy (Dircache.addExpunge x d a).2 (Dircache.addRoom x d a) :=
      arcCaseIvMakeRoom_policy whole₁
    have hk : Kept (Dircache.addExpunge x d a).2 (Dircache.addRoom x d a) :=
      (arcCaseIvMakeRoom_spec inv₁).kept
    refine ⟨p.whole, fun hx' => c.not_mem (p.indexed x hx'), ?_, ?_, ?_⟩
    · exact (p.outside x c.not_mem).trans c.dir
    · intro y hy
      rw [didKey_congr (hk.keys y (.inl hy))]
      exact c.did y (p.indexed y hy)
    · intro y hy
      rw [nameKey_congr (hk.keys y (.inl hy))]
      exact c.name y (p.indexed y hy)

theorem arc_dircacheAdd_good (inv : Inv a) (whole : Whole a) (hx : x ∉ a.dircache)
    (hl : d.arcList = none) (hg : d.arcGhost = false) (hv : Valid d)
    (he : Dircache.dircacheAdd x d a = some a') : Inv a' ∧ Whole a' ∧ x ∈ a'.dircache := by
  obtain ⟨a'', ha⟩ := dircacheAdd_spec inv hx d
  have hinv : Inv a' := by
    have := ha.exec.symm.trans he
    rw [← some.inj this]
    exact ha.inv
  obtain ⟨hw, hx', hdir, hd, hn⟩ := arc_addRoom_cleared inv whole hx hl
  obtain ⟨cur, rfl⟩ := arc_dircacheAdd_some he
  exact ⟨hinv, hw.insert hx' hdir hg hv hd hn cur, mem_cons_self⟩

theorem Lru.requeue (lru : Lru (x :: q) n a) : Lru (q ++ [x]) (n - 1 + 1) a := by
  have hp : (q ++ [x]).Perm (x :: q) := perm_append_singleton x q
  have hcount := lru.count
  rw [length_cons] at hcount
  refine { lru with nodup := hp.nodup_iff.mpr lru.nodup, mem := ?_, count := ?_ }
  · intro y
    rw [lru.mem, hp.mem_iff]
  · rw [hp.length_eq, length_cons]
    omega

/-- The oldest entry is evicted. -/
theorem Lru.evict (lru : Lru (x :: q) n a) :
    Removed x ⟨false, x :: q, n, a⟩ ⟨false, q, n - 1, dircacheDeferFree x (unindex x a)⟩ := by
  have r : Removed x ⟨false, x :: q, n, a⟩ ⟨false, q, n - 1, unindex x a⟩ := by
    have r := dircacheRemove_removed (Good.lru lru) x
    unfold dircacheRemove at r
    simpa using r
  exact r.free (Good.lru lru) x

theorem evictLoop_shrunk (h : Good s) (hm : s.enabled = false) (he : evictLoop n s = some s') :
    Shrunk s s' := by
  induction n generalizing s with
  | zero =>
    cases he
    exact .refl h
  | succ n ih =>
    cases h with
    | arc => cases hm
    | @lru q m a lru =>
      cases q with
      | nil => cases he
      | cons x =>
        unfold evictLoop at he
        dsimp only at he
        split_ifs at he with hcur
        · have r := ih (Good.lru lru.requeue) rfl he
          exact { r with }
        · have hx : x ∈ a.dircache := (lru.mem x).mpr mem_cons_self
          have r := lru.evict
          exact (r.shrunk (Good.lru lru) hx).trans (ih r.good rfl he)

theorem makeRoom_shrunk (h : Good s) (hm : s.enabled = false) (he : makeRoom s = some s') :
    Shrunk s s' := by
  unfold makeRoom at he
  split_ifs at he
  · obtain ⟨he, _⟩ := filter_eq_some_iff.mp he
    exact evictLoop_shrunk h hm he
  · cases he
    exact .refl h

theorem enqueue_good {took : Bool} (c : Cleared x d s) (hm : s.enabled = false) (hv : Valid d)
    (he : enqueue x took s = some s') :
    Good s' ∧ s'.enabled = s.enabled ∧ s'.arc.c = s.arc.c ∧ x ∈ s'.arc.dircache := by
  obtain ⟨hg, hx, hdir, hd, hn⟩ := c
  subst hdir
  cases hg with
  | arc => cases hm
  | @lru q n a lru =>
    unfold enqueue at he
    dsimp only at he
    generalize (if took = true then if (a.dir x).isFile = true then none else some x
      else a.curdir) = cur at he
    split_ifs at he with hlen
    cases he
    refine ⟨Good.lru ⟨?_, ?_, ?_, ?_, hlen.1, lru.queue, lru.size, lru.arcList, lru.arcGhost⟩,
      rfl, rfl, mem_cons_self⟩
    · exact (lru.tables.insert hx hv hd hn).congr rfl rfl rfl fun _ _ => .refl _
    · exact nodup_append'.mpr ⟨lru.nodup, nodup_singleton x,
        disjoint_singleton.mpr (mt (lru.mem x).mpr hx)⟩
    · intro y
      simp only [mem_cons, mem_append, not_mem_nil, or_false, lru.mem]
      exact or_comm
    · rw [length_append, length_singleton, lru.count]

/-- `dircache_add` of an entry whose ghost flag is clear. -/
theorem dircacheAdd_good (h : Good s) (hx : x ∉ s.arc.dircache) (hl : d.arcList = none)
    (hg : d.arcGhost = false) (he : dircacheAdd x d s = some s') :
    Good s' ∧ x ∈ s'.arc.dircache := by
  unfold dircacheAdd at he
  split_ifs at he with hd hm hlen
  · cases h with
    | arc inv whole =>
      obtain ⟨a', ha, rfl⟩ := map_eq_some_iff.mp he
      obtain ⟨hi, hw, hmem⟩ := arc_dircacheAdd_good inv whole hx hl hg ⟨hd.2.1, hd.2.2⟩ ha
      exact ⟨Good.arc hi hw, hmem⟩
    | lru => cases hm
  · obtain ⟨c, hen, _⟩ := addExpunge_cleared h hx hl fun _ => hg
    have hm' : s.enabled = false := Bool.eq_false_iff.mpr hm
    obtain ⟨s₁, hroom, he⟩ := bind_eq_some_iff.mp he
    have r := makeRoom_shrunk c.good (hen.trans hm') hroom
    obtain ⟨hgood, _, _, hmem⟩ :=
      enqueue_good (c.shrunk r) (r.enabled.trans (hen.trans hm')) ⟨hd.2.1, hd.2.2⟩ he
    exact ⟨hgood, hmem⟩

/-! ### Insertions return -/

theorem Tables.length (h : Tables a) : a.indexDidname.length = a.dircache.length :=
  ((perm_ext_iff_of_nodup h.nodupDidname h.nodupDircache).mpr
    fun x => (h.same x).symm).length_eq

theorem Lru.length (lru : Lru q n a) : a.dircache.length = q.length :=
  ((perm_ext_iff_of_nodup lru.tables.nodupDircache lru.nodup).mpr lru.mem).length_eq

theorem Shrunk.length_le (r : Shrunk s s') : s'.arc.dircache.length ≤ s.arc.dircache.length :=
  (subperm_of_subset r.good.tables.nodupDircache r.indexed).length_le

theorem evictLoop_returns (hn : n ≤ s.indexQueue.length) : ∃ s', evictLoop n s = some s' := by
  fun_induction evictLoop n s with
  | case1 s => exact ⟨s, rfl⟩
  | case2 n s hq => simp [hq] at hn
  | case3 n s x q hq _ ih | case4 n s x q hq _ ih =>
    rw [hq, length_cons] at hn
    apply ih
    simp only [length_append]
    omega

/-- A round that does not meet the current directory takes an entry out. -/
theorem evictLoop_lt (lru : Lru (x :: q) m a) (hcur : a.curdir ≠ some x)
    (he : evictLoop (n + 1) ⟨false, x :: q, m, a⟩ = some s') :
    s'.arc.dircache.length < a.dircache.length := by
  have hx : x ∈ a.dircache := (lru.mem x).mpr mem_cons_self
  unfold evictLoop at he
  dsimp only at he
  rw [if_neg hcur] at he
  have hle := (evictLoop_shrunk lru.evict.good rfl he).length_le
  have hlen : (a.dircache.erase x).length + 1 = a.dircache.length :=
    length_erase_add_one hx
  change _ ≤ (a.dircache.erase x).length at hle
  omega

/-- Of the first two entries at most one is the current directory. -/
theorem evictLoop_two_lt (lru : Lru q m a)
    (hq : 2 ≤ q.length) (he : evictLoop (n + 2) ⟨false, q, m, a⟩ = some s') :
    s'.arc.dircache.length < a.dircache.length := by
  match q, hq with
  | x :: y :: q, _ =>
    by_cases hcur : a.curdir = some x
    · unfold evictLoop at he
      dsimp only at he
      rw [if_pos hcur] at he
      refine evictLoop_lt lru.requeue ?_ he
      rw [hcur]
      rintro hxy
      have hnd := (nodup_cons.mp lru.nodup).1
      rw [some.inj hxy] at hnd
      exact hnd mem_cons_self
    · exact evictLoop_lt lru hcur he

theorem makeRoom_returns (h : Good s) (hm : s.enabled = false)
    (hc : dircacheFreeQuantum ≤ s.arc.c) :
    ∃ s', makeRoom s = some s' ∧ s'.arc.dircache.length < s'.arc.c := by
  unfold makeRoom
  split_ifs with hfull
  · cases h with
    | arc => cases hm
    | @lru q m a lru =>
      have hlen := lru.length
      have hq : dircacheFreeQuantum ≤ q.length := by
        dsimp only at hfull hc
        omega
      obtain ⟨s', he⟩ := evictLoop_returns (s := ⟨false, q, m, a⟩) hq
      have r := evictLoop_shrunk (Good.lru lru) rfl he
      refine ⟨s', filter_eq_some_iff.mpr ⟨he, ?_⟩, ?_⟩
      · have hg := r.good
        have hen := r.enabled
        cases hg with
        | arc => cases hen
        | lru lru' => exact decide_eq_true (lru'.count.trans lru'.length.symm)
      · rw [r.c]
        refine (evictLoop_two_lt (n := 254) lru ?_ he).trans_le lru.fits
        unfold dircacheFreeQuantum at hq
        omega
  · exact ⟨s, rfl, lt_of_not_ge hfull⟩

/-- `dircache_add` of an entry that passes its assertions returns: no table is full, and the LRU
mode never runs out of entries to evict. -/
theorem dircacheAdd_returns (h : Good s) (hc : dircacheFreeQuantum ≤ s.arc.c)
    (hx : x ∉ s.arc.dircache) (hl : d.arcList = none)
    (hg : s.enabled = false → d.arcGhost = false)
    (hd : 2 ≤ d.pdid ∧ cnidStart ≤ d.did ∧ d.vid ≠ 0) : ∃ s', dircacheAdd x d s = some s' := by
  unfold dircacheAdd
  rw [if_pos hd]
  have hclear := addExpunge_cleared h hx hl hg
  cases h with
  | arc inv =>
    obtain ⟨a', ha⟩ := dircacheAdd_spec inv hx d
    exact ⟨⟨true, [], 0, a'⟩, by simp [ha.exec]⟩
  | @lru q n a lru =>
    obtain ⟨c, hen, hcap⟩ := hclear
    obtain ⟨s₁, hroom, hlt⟩ := makeRoom_returns c.good hen (by rw [hcap]; exact hc)
    have r := makeRoom_shrunk c.good hen hroom
    have hgood := r.good
    have hen₁ := r.enabled.trans hen
    simp only [Bool.false_eq_true, if_false]
    rw [if_pos lru.fits, hroom, bind_some]
    cases hgood with
    | arc => cases hen₁
    | lru lru₁ =>
      have hlen := lru₁.tables.length
      have hcount := lru₁.count.trans lru₁.length.symm
      unfold enqueue
      dsimp only at hlt ⊢
      rw [if_pos ⟨hlt, by omega⟩]
      simp only [length_cons]
      rw [if_pos ⟨by omega, by omega⟩]
      exact ⟨_, rfl⟩

end Netatalk.DirIndex
