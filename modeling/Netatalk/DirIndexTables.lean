import Netatalk.DirIndex
import Netatalk.ArcCacheConsistent
import Mathlib.Data.Set.Function

/-! # The two tables of the directory cache

`Tables` says that the two tables hold the same entries, each once and under a key no other entry
has, that no indexed entry has a reserved id, and that the counters by volume count them.  It
speaks of no queue, so it is kept the same way in both modes: `Tables.unindex` for what leaves the
tables, `Tables.insert` for what enters them and `Tables.retitle` for an entry that takes another
name key. -/

namespace Netatalk.DirIndex

open List Function Dircache

/-- The key of the DID index. -/
def didKey (d : Dir) : ℕ × ℕ := (d.vid, d.did)

/-- The key of the name index. -/
def nameKey (d : Dir) : ℕ × ℕ × List UInt8 := (d.vid, d.pdid, d.uName)

variable {d d' : Dir} {x : Ptr}

theorem didKey_congr (k : SameKey d d') : didKey d' = didKey d := by
  unfold didKey
  rw [k.vid, k.did]

theorem nameKey_congr (k : SameKey d d') : nameKey d' = nameKey d := by
  unfold nameKey
  rw [k.vid, k.pdid, k.uName]

/-- No entry of the table has the key. -/
def Free {K : Type} (key : Dir → K) (a : Arc) (k : K) : Prop :=
  ∀ y ∈ a.dircache, key (a.dir y) ≠ k

/-- What `dircache_add` asserts of an entry it puts into the tables. -/
structure Valid (d : Dir) : Prop where
  did : cnidStart ≤ d.did
  vid : d.vid ≠ 0

/-- The tables agree. -/
structure Tables (a : Arc) : Prop where
  nodupDircache : a.dircache.Nodup
  nodupDidname : a.indexDidname.Nodup
  same : ∀ x, x ∈ a.dircache ↔ x ∈ a.indexDidname
  did : Set.InjOn (fun x => didKey (a.dir x)) {x | x ∈ a.dircache}
  name : Set.InjOn (fun x => nameKey (a.dir x)) {x | x ∈ a.dircache}
  valid : ∀ x ∈ a.dircache, Valid (a.dir x)
  counted : ∀ v, a.vidEntryCount v = a.dircache.countP fun x => (a.dir x).vid = v

section tables
variable {a : Arc} (h : Tables a)
include h

/-- Only the keys of the indexed entries matter. -/
theorem Tables.congr {a' : Arc} (hd : a'.dircache = a.dircache)
    (hn : a'.indexDidname = a.indexDidname) (hc : a'.vidEntryCount = a.vidEntryCount)
    (hk : ∀ x ∈ a.dircache, SameKey (a.dir x) (a'.dir x)) : Tables a' where
  nodupDircache := by rw [hd]; exact h.nodupDircache
  nodupDidname := by rw [hn]; exact h.nodupDidname
  same x := by rw [hd, hn]; exact h.same x
  did := by
    rw [hd]
    exact h.did.congr fun x hx => (didKey_congr (hk x hx)).symm
  name := by
    rw [hd]
    exact h.name.congr fun x hx => (nameKey_congr (hk x hx)).symm
  valid x hx := by
    rw [hd] at hx
    exact ⟨(hk x hx).did ▸ (h.valid x hx).did, (hk x hx).vid ▸ (h.valid x hx).vid⟩
  counted v := by
    rw [hd, hc, h.counted]
    refine countP_congr fun x hx => ?_
    rw [(hk x hx).vid]

theorem Tables.unindex (x : Ptr) : Tables (unindex x a) := by
  have hsub : {y | y ∈ a.dircache.erase x} ⊆ {y | y ∈ a.dircache} := fun _ => mem_of_mem_erase
  refine ⟨h.nodupDircache.erase x, h.nodupDidname.erase x, ?_, h.did.mono hsub, h.name.mono hsub,
    fun y hy => h.valid y (hsub hy), ?_⟩
  · intro y
    simp only [Dircache.unindex, h.nodupDircache.mem_erase_iff, h.nodupDidname.mem_erase_iff,
      h.same]
  · intro v
    simp only [Dircache.unindex]
    by_cases hx : x ∈ a.dircache
    · have hp := (perm_cons_erase hx).countP_eq fun y => (a.dir y).vid = v
      rw [countP_cons, ← h.counted] at hp
      rw [if_pos hx, update_apply]
      by_cases hv : v = (a.dir x).vid
      · rw [if_pos (by simp [hv])] at hp
        rw [if_pos hv, ← hv, hp, Nat.add_sub_cancel]
        rfl
      · rw [if_neg (by simp [Ne.symm hv]), Nat.add_zero] at hp
        rw [if_neg hv, hp]
        rfl
    · rw [if_neg hx, erase_of_not_mem hx, h.counted]
      rfl

theorem Tables.outside (hx : x ∉ a.dircache) (d : Dir) :
    Tables { a with dir := update a.dir x d } := by
  refine h.congr rfl rfl rfl ?_
  intro y hy
  have hyx : y ≠ x := fun he => hx (he ▸ hy)
  simp only [update_of_ne hyx]
  exact .refl _

/-- An entry enters both tables under keys that are free. -/
theorem Tables.insert (hx : x ∉ a.dircache) (hv : Valid (a.dir x))
    (hd : Free didKey a (didKey (a.dir x))) (hn : Free nameKey a (nameKey (a.dir x))) :
    Tables { a with
      dircache := x :: a.dircache
      indexDidname := x :: a.indexDidname
      vidEntryCount :=
        update a.vidEntryCount (a.dir x).vid (a.vidEntryCount (a.dir x).vid + 1) } := by
  have hset : {y | y ∈ x :: a.dircache} = Insert.insert x {y | y ∈ a.dircache} := by
    ext y
    exact mem_cons
  refine ⟨nodup_cons.mpr ⟨hx, h.nodupDircache⟩,
    nodup_cons.mpr ⟨mt (h.same x).mpr hx, h.nodupDidname⟩, ?_, ?_, ?_, ?_, ?_⟩
  · intro y
    simp only [mem_cons, h.same]
  · rw [hset, Set.injOn_insert (show x ∉ {y | y ∈ a.dircache} from hx)]
    refine ⟨h.did, ?_⟩
    rintro ⟨y, hy, he⟩
    exact hd y hy he
  · rw [hset, Set.injOn_insert (show x ∉ {y | y ∈ a.dircache} from hx)]
    refine ⟨h.name, ?_⟩
    rintro ⟨y, hy, he⟩
    exact hn y hy he
  · exact forall_mem_cons.2 ⟨hv, h.valid⟩
  · intro v
    by_cases hv : v = (a.dir x).vid
    · simp [hv, h.counted]
    · simp [hv, Ne.symm hv, h.counted]

/-- An indexed entry takes another name key that is free apart from it. -/
theorem Tables.retitle (hx : x ∈ a.dircache) (hvid : d.vid = (a.dir x).vid)
    (hdid : d.did = (a.dir x).did) (hn : ∀ y ∈ a.dircache, y ≠ x → nameKey (a.dir y) ≠ nameKey d) :
    Tables { a with
      indexDidname := x :: a.indexDidname.erase x
      dir := update a.dir x d } := by
  have hdir : ∀ y, (update a.dir x d y).vid = (a.dir y).vid ∧
      (update a.dir x d y).did = (a.dir y).did := by
    intro y
    by_cases hy : y = x
    · rw [hy, update_self]
      exact ⟨hvid, hdid⟩
    · rw [update_of_ne hy]
      exact ⟨rfl, rfl⟩
  refine ⟨h.nodupDircache, ?_, ?_, ?_, ?_, ?_, ?_⟩
  · rw [nodup_cons, h.nodupDidname.mem_erase_iff]
    exact ⟨fun hm => hm.1 rfl, h.nodupDidname.erase x⟩
  · intro y
    simp only [mem_cons, h.nodupDidname.mem_erase_iff, ← h.same]
    by_cases hy : y = x
    · simp [hy, hx]
    · simp [hy]
  · refine h.did.congr ?_
    intro y _
    simp only [didKey, (hdir y).1, (hdir y).2]
  · intro y hy z hz he
    by_cases hyx : y = x
    · by_cases hzx : z = x
      · rw [hyx, hzx]
      · simp only [hyx, update_self, update_of_ne hzx] at he
        exact absurd he.symm (hn z hz hzx)
    · by_cases hzx : z = x
      · simp only [hzx, update_self, update_of_ne hyx] at he
        exact absurd he (hn y hy hyx)
      · simp only [update_of_ne hyx, update_of_ne hzx] at he
        exact h.name hy hz he
  · intro y hy
    exact ⟨(hdir y).2 ▸ (h.valid y hy).did, (hdir y).1 ▸ (h.valid y hy).vid⟩
  · intro v
    simp only [(hdir _).1]
    exact h.counted v

/-! ### Lookups -/

/-- A lookup finds nothing under a key that is free, and else the one entry that has the key. -/
def Finds {K : Type} (key : Dir → K) (a : Arc) (k : K) (found : Option Ptr) : Prop :=
  found = none ∧ Free key a k ∨ ∃ x ∈ a.dircache, found = some x ∧
    ∀ y ∈ a.dircache, key (a.dir y) = k → y = x

omit h in
theorem finds_find? {K : Type} {key : Dir → K} {k : K} {l : List Ptr} {p : Ptr → Bool}
    (hl : ∀ y, y ∈ a.dircache ↔ y ∈ l) (hp : ∀ y, p y = true ↔ key (a.dir y) = k)
    (hinj : Set.InjOn (fun x => key (a.dir x)) {x | x ∈ a.dircache}) :
    Finds key a k (l.find? p) := by
  cases hx : l.find? p with
  | none =>
    refine .inl ⟨rfl, ?_⟩
    intro y hy he
    exact find?_eq_none.mp hx y ((hl y).mp hy) ((hp y).mpr he)
  | some x =>
    have hm := (hl x).mpr (mem_of_find?_eq_some hx)
    have hk := (hp x).mp (find?_some hx)
    exact .inr ⟨x, hm, rfl, fun y hy he => hinj hy hm (he.trans hk.symm)⟩

theorem Tables.finds_lookupDid (d : Dir) : Finds didKey a (didKey d) (a.lookupDid d) :=
  finds_find? (fun _ => .rfl) (fun y => by simp [didKey]) h.did

theorem Tables.finds_lookupDidname (d : Dir) : Finds nameKey a (nameKey d) (a.lookupDidname d) :=
  finds_find? h.same (fun y => by simp [nameKey, and_assoc]) h.name

end tables

end Netatalk.DirIndex
