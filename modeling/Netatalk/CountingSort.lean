import Mathlib.Data.List.Basic

/-! # Counting sort

A list is sorted by a key in three passes: count the elements of each key (`tally`), turn the
counts into the place where the elements of each key start (`starts`), and put every element into
the next free place of its key (`scatter`).  The result has the elements of key 0 in front, then
those of key 1 and so on, each in their old order (`take_countingSort`). -/

namespace Netatalk.CountingSort

open List Function

variable {α : Type*} (key : α → ℕ)

/-! ### The passes -/

/-- The number of elements of each key. -/
def tally (l : List α) : ℕ → ℕ :=
  l.foldl (fun c a => update c (key a) (c (key a) + 1)) fun _ => 0

/-- The place of the first element of each key. -/
def starts (counts : ℕ → ℕ) : ℕ → ℕ
  | 0 => 0
  | k + 1 => starts counts k + counts k

/-- Every element into the next free place of its key. -/
def scatter : List α → (ℕ → ℕ) → List α → List α
  | [], _, out => out
  | a :: l, offs, out =>
    scatter l (update offs (key a) (offs (key a) + 1)) (out.set (offs (key a)) a)

/-- The three passes, into an array. -/
def countingSort (l out : List α) : List α := scatter key l (starts (tally key l)) out

/-- The elements of a key, in their order. -/
def ofKey (l : List α) (k : ℕ) : List α := l.filter fun a => key a = k

section
variable {key} {a : α} {l : List α} {k : ℕ}

theorem ofKey_cons_self : ofKey key (a :: l) (key a) = a :: ofKey key l (key a) := by simp [ofKey]

theorem ofKey_cons_of_ne (h : k ≠ key a) : ofKey key (a :: l) k = ofKey key l k := by
  simp [ofKey, Ne.symm h]

theorem length_ofKey_cons : (ofKey key (a :: l) k).length =
    (ofKey key l k).length + if key a = k then 1 else 0 := by
  by_cases h : k = key a
  · subst h
    simp [ofKey_cons_self]
  · simp [ofKey_cons_of_ne h, Ne.symm h]

end

/-! ### Counts and places -/

theorem tally_eq (l : List α) (k : ℕ) : tally key l k = (ofKey key l k).length := by
  have hfold : ∀ (l : List α) (c : ℕ → ℕ),
      l.foldl (fun c a => update c (key a) (c (key a) + 1)) c k =
        c k + (ofKey key l k).length := by
    intro l
    induction l with
    | nil => intro c; rfl
    | cons a l ih =>
      intro c
      rw [foldl_cons, ih, length_ofKey_cons]
      by_cases h : k = key a
      · subst h
        simp
        omega
      · simp [h, Ne.symm h]
  rw [tally, hfold, Nat.zero_add]

theorem starts_zero (k : ℕ) : starts (fun _ => 0) k = 0 := by
  induction k with
  | zero => rfl
  | succ k ih => rw [starts, ih]

theorem starts_add (f g : ℕ → ℕ) (k : ℕ) :
    starts (fun i => f i + g i) k = starts f k + starts g k := by
  induction k with
  | zero => rfl
  | succ k ih =>
    rw [starts, starts, starts]
    omega

theorem starts_single (j k : ℕ) : starts (fun i => if j = i then 1 else 0) k =
    if j < k then 1 else 0 := by
  induction k with
  | zero => simp [starts]
  | succ k ih =>
    rw [starts, ih]
    split_ifs <;> omega

theorem starts_mono (c : ℕ → ℕ) {j k : ℕ} (h : j ≤ k) : starts c j ≤ starts c k := by
  induction h with
  | refl => exact Nat.le_refl _
  | step _ ih =>
    rw [starts]
    omega

theorem starts_tally {l : List α} {n : ℕ} (h : ∀ a ∈ l, key a < n) :
    starts (tally key l) n = l.length := by
  have hcount : tally key l = fun k => (ofKey key l k).length := funext (tally_eq key l)
  rw [hcount]
  clear hcount
  induction l with
  | nil => exact starts_zero n
  | cons a l ih =>
    have hcons : (fun k => (ofKey key (a :: l) k).length) =
        fun k => (ofKey key l k).length + if key a = k then 1 else 0 :=
      funext fun k => length_ofKey_cons
    rw [hcons, starts_add, starts_single, ih fun b hb => h b (by simp [hb]),
      if_pos (h a (by simp)), length_cons]

/-! ### Scattering -/

section
variable {key} {a : α} {l out : List α} {offs : ℕ → ℕ} {n : ℕ}

/-- The places of different keys are different and inside an array of length `n`. -/
structure Places (key : α → ℕ) (l : List α) (offs : ℕ → ℕ) (n : ℕ) : Prop where
  ne : ∀ {k k' i j}, k ≠ k' → i < (ofKey key l k).length → j < (ofKey key l k').length →
    offs k + i ≠ offs k' + j
  lt : ∀ {k i}, i < (ofKey key l k).length → offs k + i < n

/-- The free places once `a` has taken its own. -/
abbrev taken (key : α → ℕ) (a : α) (offs : ℕ → ℕ) : ℕ → ℕ :=
  update offs (key a) (offs (key a) + 1)

theorem lt_length_ofKey_self : 0 < (ofKey key (a :: l) (key a)).length := by
  rw [ofKey_cons_self]
  exact Nat.zero_lt_succ _

/-- The places of the rest are among the places of all, and not the first of its key. -/
theorem exists_place {k i : ℕ} (hi : i < (ofKey key l k).length) :
    ∃ i' < (ofKey key (a :: l) k).length, taken key a offs k + i = offs k + i' ∧
      (k = key a → 0 < i') := by
  by_cases hk : k = key a
  · subst hk
    refine ⟨i + 1, ?_, ?_, fun _ => Nat.zero_lt_succ i⟩
    · rw [ofKey_cons_self]
      exact Nat.succ_lt_succ hi
    · rw [taken, update_self]
      omega
  · refine ⟨i, by rwa [ofKey_cons_of_ne hk], ?_, fun h => absurd h hk⟩
    rw [taken, update_of_ne hk]

theorem Places.tail (h : Places key (a :: l) offs n) : Places key l (taken key a offs) n where
  ne {k k' i j} hne hi hj := by
    obtain ⟨i', hi', hpi, -⟩ := exists_place hi
    obtain ⟨j', hj', hpj, -⟩ := exists_place hj
    rw [hpi, hpj]
    exact h.ne hne hi' hj'
  lt {k i} hi := by
    obtain ⟨i', hi', hpi, -⟩ := exists_place hi
    rw [hpi]
    exact h.lt hi'

theorem Places.head_ne (h : Places key (a :: l) offs n) {k i : ℕ}
    (hi : i < (ofKey key l k).length) : offs (key a) ≠ taken key a offs k + i := by
  obtain ⟨i', hi', hpi, hpos⟩ := exists_place hi
  rw [hpi]
  by_cases hk : k = key a
  · subst hk
    omega
  · exact h.ne (Ne.symm hk) lt_length_ofKey_self hi'

theorem getElem?_scatter_of_ne {p : ℕ} (hp : ∀ k i, i < (ofKey key l k).length → p ≠ offs k + i) :
    (scatter key l offs out)[p]? = out[p]? := by
  induction l generalizing offs out with
  | nil => rfl
  | cons a l ih =>
    have hrest : ∀ k i, i < (ofKey key l k).length → p ≠ taken key a offs k + i := by
      intro k i hi
      obtain ⟨i', hi', hpi, -⟩ := exists_place hi
      rw [hpi]
      exact hp k i' hi'
    rw [scatter, ih hrest, getElem?_set_ne]
    exact Ne.symm (hp (key a) 0 lt_length_ofKey_self)

/-- Each element stands in its place. -/
theorem Places.getElem?_scatter (h : Places key l offs out.length) {k j : ℕ}
    (hj : j < (ofKey key l k).length) :
    (scatter key l offs out)[offs k + j]? = (ofKey key l k)[j]? := by
  induction l generalizing offs out j with
  | nil => cases hj
  | cons a l ih =>
    have htail : Places key l (taken key a offs) (out.set (offs (key a)) a).length := by
      rw [length_set]
      exact h.tail
    rw [scatter]
    by_cases hk : k = key a
    · subst hk
      rw [ofKey_cons_self] at hj ⊢
      cases j with
      | zero =>
        have hlt : offs (key a) < out.length := h.lt lt_length_ofKey_self
        refine (getElem?_scatter_of_ne fun k i hi => h.head_ne hi).trans ?_
        rw [getElem?_set_self hlt, getElem?_cons_zero]
      | succ =>
        have hplace := ih htail (Nat.lt_of_succ_lt_succ hj)
        rw [taken, update_self, Nat.add_assoc, Nat.add_comm 1] at hplace
        rw [getElem?_cons_succ, ← hplace]
    · rw [ofKey_cons_of_ne hk] at hj ⊢
      have hplace := ih htail hj
      rwa [taken, update_of_ne hk] at hplace

end

/-! ### Sorting -/

section
variable {key} {l : List α} {n : ℕ}

theorem starts_tally_succ (key : α → ℕ) (l : List α) (k : ℕ) : starts (tally key l) (k + 1) =
    starts (tally key l) k + (ofKey key l k).length := by
  rw [starts, tally_eq]

theorem places_starts (h : ∀ a ∈ l, key a < n) : Places key l (starts (tally key l)) l.length where
  ne {k k' i j} hne hi hj := by
    have h₁ := starts_tally_succ key l k
    have h₂ := starts_tally_succ key l k'
    rcases Nat.lt_or_gt_of_ne hne with hlt | hlt
    · have := starts_mono (tally key l) (show k + 1 ≤ k' from hlt)
      omega
    · have := starts_mono (tally key l) (show k' + 1 ≤ k from hlt)
      omega
  lt {k i} hi := by
    obtain ⟨a, ha⟩ := exists_mem_of_length_pos (Nat.zero_lt_of_lt hi)
    rw [ofKey, mem_filter, decide_eq_true_eq] at ha
    have hk : k + 1 ≤ n := ha.2 ▸ h a ha.1
    have hle := starts_mono (tally key l) hk
    rw [starts_tally key h, starts_tally_succ] at hle
    omega

end

/-- The sorted elements fill the start of the array, key by key. -/
theorem take_countingSort {l out : List α} {n : ℕ} (h : ∀ a ∈ l, key a < n)
    (hlen : l.length ≤ out.length) :
    (countingSort key l out).take l.length = (List.range n).flatMap (ofKey key l) := by
  have hplaces := places_starts h
  have hout : Places key l (starts (tally key l)) out.length :=
    ⟨hplaces.ne, fun hi => Nat.lt_of_lt_of_le (hplaces.lt hi) hlen⟩
  -- the places of one key hold its elements
  have hseg : ∀ k, ((countingSort key l out).drop (starts (tally key l) k)).take
      (ofKey key l k).length = ofKey key l k := by
    intro k
    apply ext_getElem?
    intro i
    rw [getElem?_take, getElem?_drop]
    split_ifs with hi
    · exact hout.getElem?_scatter hi
    · rw [getElem?_eq_none (by omega)]
  have hall : ∀ m, (countingSort key l out).take (starts (tally key l) m) =
      (List.range m).flatMap (ofKey key l) := by
    intro m
    induction m with
    | zero => rfl
    | succ m ih =>
      rw [starts_tally_succ, take_add, ih, hseg, range_succ, flatMap_append,
        flatMap_singleton]
  rw [← hall n, starts_tally key h]

end Netatalk.CountingSort
