import Netatalk.Bisect
import Netatalk.DeferredRing

/-! # Finding the batch member above an entry

A batch merges jobs of one depth.  The only member that can lie above an entry is the path of
the entry cut at the slash number `depth + 1`, and `deferred_batch_match` looks it up by
bisection in the sorted member index.  The order of the index is the lexicographic one on
volume and path (`keyCmp_eq`), so the lookup finds the cut path exactly when it is there, and
for an entry below a member of its own volume it is (`deferredBatchMatch_isSome`). -/

namespace Netatalk.Deferred

open List Std

/-! ### Paths below paths -/

theorem pathIsStrictChild_iff {path parentPath : List UInt8} :
    pathIsStrictChild path parentPath = true ↔ ∃ r, path = parentPath ++ slash :: r := by
  simp only [pathIsStrictChild, Bool.and_eq_true, decide_eq_true_eq, beq_iff_eq]
  constructor
  · rintro ⟨⟨hlt, htake⟩, hslash⟩
    refine ⟨path.drop (parentPath.length + 1), ?_⟩
    have hget := (List.getElem?_eq_some_iff.mp hslash).2
    calc path = path.take parentPath.length ++ path.drop parentPath.length :=
          (take_append_drop _ _).symm
      _ = parentPath ++ slash :: path.drop (parentPath.length + 1) := by
          rw [htake, drop_eq_getElem_cons hlt, hget]
  · rintro ⟨r, rfl⟩
    refine ⟨⟨?_, take_left' rfl⟩, ?_⟩
    · rw [length_append, length_cons]
      omega
    · rw [getElem?_append_right le_rfl, Nat.sub_self]
      rfl

theorem pathIsStrictChild_trans {a b c : List UInt8} (h : pathIsStrictChild a b = true)
    (h' : pathIsStrictChild b c = true) : pathIsStrictChild a c = true := by
  obtain ⟨r, rfl⟩ := pathIsStrictChild_iff.mp h
  obtain ⟨r', rfl⟩ := pathIsStrictChild_iff.mp h'
  refine pathIsStrictChild_iff.mpr ⟨r' ++ slash :: r, ?_⟩
  rw [append_assoc, cons_append]

/-- Cutting at the slash after the slashes of `p` gives back the length of `p`. -/
theorem candLen_append (r : List UInt8) : ∀ (p : List UInt8) (slashes bi : ℕ),
    candLen (slashes + p.count slash) (p ++ slash :: r) slashes bi = bi + p.length
  | [], slashes, bi => by simp [candLen]
  | b :: p, slashes, bi => by
      rw [List.cons_append, candLen]
      split_ifs with hb hd
      · rw [hb, List.count_cons_self] at hd
        omega
      · rw [hb, List.count_cons_self, List.length_cons,
          show slashes + (p.count slash + 1) = slashes + 1 + p.count slash by omega,
          candLen_append r p]
        omega
      · rw [List.count_cons_of_ne hb, List.length_cons, candLen_append r p]
        omega

/-! ### The order of the index -/

/-- The comparison of the source, equality first, is the one of the order. -/
theorem cmp_eq_compareOfLessAndEq {α : Type} [LT α] [DecidableLT α] [DecidableEq α]
    (hirr : ∀ x : α, ¬x < x) (x y : α) :
    (if x = y then Ordering.eq else if x < y then .lt else .gt) = compareOfLessAndEq x y := by
  rw [compareOfLessAndEq]
  split_ifs with h1 h2
  · rw [h1] at h2
    exact absurd h2 (hirr y)
  · rfl
  · rfl
  · rfl

theorem memcmp_then_eq : ∀ path path' : List UInt8,
    (memcmp (min path.length path'.length) path path').then
      (compare path.length path'.length) = compare path path'
  | [], [] => rfl
  | [], y :: ys => by
      rw [List.compare_eq_compareLex, List.compareLex_nil_cons]
      simp [memcmp, compare, compareOfLessAndEq]
  | x :: xs, [] => by
      rw [List.compare_eq_compareLex, List.compareLex_cons_nil]
      simp [memcmp, compare, compareOfLessAndEq]
  | x :: xs, y :: ys => by
      have hc : compare x y = if x = y then .eq else if x < y then .lt else .gt :=
        (cmp_eq_compareOfLessAndEq UInt8.lt_irrefl x y).symm
      have hlen : compare (x :: xs).length (y :: ys).length = compare xs.length ys.length := by
        simp [compare, compareOfLessAndEq]
      rw [List.compare_eq_compareLex, List.compareLex_cons_cons, ← List.compare_eq_compareLex,
        ← memcmp_then_eq xs ys, hlen, hc, length_cons, length_cons,
        Nat.add_min_add_right, memcmp]
      split_ifs
      · rfl
      · rfl
      · rfl

theorem keyCmp_eq (vid vid' : UInt16) (path path' : List UInt8) :
    keyCmp vid path vid' path' = (compare vid vid').then (compare path path') := by
  have hc : compare vid vid' = if vid = vid' then .eq else if vid < vid' then .lt else .gt :=
    (cmp_eq_compareOfLessAndEq UInt16.lt_irrefl vid vid').symm
  rw [keyCmp, memcmp_then_eq, hc]
  by_cases h : vid = vid'
  · simp [h]
  · by_cases hlt : vid < vid'
    · simp [h, hlt]
    · simp [h, hlt]

/-- Volume and path of a slot, the key of the index. -/
def DeferredCleanup.sortKey (c : DeferredCleanup) : UInt16 × List UInt8 := (c.vVid, c.path)

/-- The order of the index on keys. -/
def keyOrder : UInt16 × List UInt8 → UInt16 × List UInt8 → Ordering :=
  compareLex (compareOn Prod.fst) (compareOn Prod.snd)

instance : TransCmp keyOrder := inferInstanceAs (TransCmp (compareLex _ _))

instance : LawfulEqCmp keyOrder where
  eq_of_compare {a b} h := by
    obtain ⟨h1, h2⟩ := Ordering.then_eq_eq.mp h
    exact Prod.ext (LawfulEqCmp.eq_of_compare h1) (LawfulEqCmp.eq_of_compare h2)

theorem keyCmp_eq_keyOrder (k k' : UInt16 × List UInt8) :
    keyCmp k.1 k.2 k'.1 k'.2 = keyOrder k k' := keyCmp_eq _ _ _ _

theorem deferredBatchCmp_eq (d : Queue) (a b : ℕ) :
    deferredBatchCmp d a b = keyOrder (d.queue a).sortKey (d.queue b).sortKey :=
  keyCmp_eq_keyOrder (d.queue a).sortKey (d.queue b).sortKey

/-! ### The lookup -/

/-- The job at a position of the member index. -/
def Queue.member (d : Queue) (mid : ℕ) : DeferredCleanup := d.queue (d.batchIdx.getD mid 0)

/-- Position in the member index of the path of an entry cut at the depth of the batch. -/
def deferredBatchMatch (d : Queue) (vid : UInt16) (ep : List UInt8) : Option ℕ :=
  let cand := candLen d.batchDepth ep 0 0
  if cand = 0 then none
  else bisect (fun mid => keyCmp vid (ep.take cand) (d.member mid).vVid (d.member mid).path)
    d.batchIdx.length

variable {d d' : Queue}

theorem Queue.member_eq {mid : ℕ} (h : mid < d.batchIdx.length) :
    d.member mid = d.queue d.batchIdx[mid] := by
  rw [Queue.member, getD_eq_getElem?_getD, getElem?_eq_getElem h, Option.getD_some]

/-- Positions of a sorted index ascend with respect to every key. -/
theorem ascending_member (hs : d.batchIdx.Pairwise fun a b => (deferredBatchCmp d a b).isLE = true)
    (k : UInt16 × List UInt8) :
    Ascending (fun mid => keyOrder k (d.member mid).sortKey) d.batchIdx.length := by
  have hle : ∀ i j, i < j → j < d.batchIdx.length →
      (keyOrder (d.member i).sortKey (d.member j).sortKey).isLE = true := by
    intro i j hij hj
    have := pairwise_iff_getElem.mp hs i j (by omega) hj hij
    rw [deferredBatchCmp_eq] at this
    rw [Queue.member_eq (Nat.lt_trans hij hj), Queue.member_eq hj]
    exact this
  refine ⟨?_, ?_⟩
  · intro i j hij hj hgt
    obtain rfl | hlt := Nat.eq_or_lt_of_le hij
    · exact hgt
    · rw [OrientedCmp.gt_iff_lt] at hgt ⊢
      exact TransCmp.lt_of_isLE_of_lt (hle i j hlt hj) hgt
  · intro i j hij hj hlt'
    obtain rfl | hlt := Nat.eq_or_lt_of_le hij
    · exact hlt'
    · exact TransCmp.lt_of_lt_of_isLE hlt' (hle i j hlt hj)

/-- An entry below a member of its own volume is found. -/
theorem Queue.WF.deferredBatchMatch_isSome (h : d.WF) (hb : d.batchActive = true) {i : ℕ}
    (hi : i ∈ d.batchIdx) {ep : List UInt8} (hchild : pathIsStrictChild ep (d.queue i).path = true)
    (hne : (d.queue i).path ≠ []) : (deferredBatchMatch d (d.queue i).vVid ep).isSome = true := by
  obtain ⟨r, rfl⟩ := pathIsStrictChild_iff.mp hchild
  have hcand : candLen d.batchDepth ((d.queue i).path ++ slash :: r) 0 0 =
      (d.queue i).path.length := by
    have := candLen_append r (d.queue i).path 0 0
    rw [zero_add, zero_add, (h.batch hb i hi).2] at this
    exact this
  simp only [deferredBatchMatch, hcand, take_left]
  rw [if_neg (by simpa using hne)]
  have horder : (fun mid => keyCmp (d.queue i).vVid (d.queue i).path (d.member mid).vVid
      (d.member mid).path) = fun mid => keyOrder (d.queue i).sortKey (d.member mid).sortKey :=
    funext fun mid => keyCmp_eq_keyOrder (d.queue i).sortKey (d.member mid).sortKey
  rw [horder, bisect_isSome_iff (ascending_member (h.sorted hb) (d.queue i).sortKey)]
  obtain ⟨mid, hmid, rfl⟩ := getElem_of_mem hi
  refine ⟨mid, hmid, ?_⟩
  rw [Queue.member_eq hmid]
  exact ReflCmp.compare_self

theorem Queue.WF.batchStart (h : d.WF) (ha : d.active = none) (hd : d.depthMin = d.depthMax)
    (hs : deferredBatchStart d = some d') : d'.WF := by
  rw [deferredBatchStart] at hs
  split_ifs at hs
  cases hs
  refine { h with ringed := h.ringed.congr rfl rfl rfl, active := ?_, batch := ?_, sorted := ?_ }
  · intro a haa
    rw [show d.active = some a from haa] at ha
    cases ha
  · intro _ i hi
    have hl : i ∈ d.live := mem_mergeSort.mp hi
    obtain ⟨h1, h2⟩ := h.watermarks i hl
    have h3 := h.depth i hl
    refine ⟨hl, ?_⟩
    show (d.queue i).path.count slash = d.depthMin
    omega
  · intro _
    apply pairwise_mergeSort
    · intro a b c hab hbc
      rw [deferredBatchCmp_eq] at hab hbc ⊢
      exact TransCmp.isLE_trans hab hbc
    · intro a b
      have hswap : keyOrder (d.queue b).sortKey (d.queue a).sortKey =
          (keyOrder (d.queue a).sortKey (d.queue b).sortKey).swap := OrientedCmp.eq_swap
      rw [deferredBatchCmp_eq, deferredBatchCmp_eq, hswap]
      cases keyOrder (d.queue a).sortKey (d.queue b).sortKey <;> rfl

end Netatalk.Deferred
