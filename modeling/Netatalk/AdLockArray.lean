import Netatalk.AdLock

/-! # The lock array and its invariant

`WellFormed` is what the lock array of a descriptor promises: the entries are in order of
start, the reach at index `i` is the largest last byte of the entries `0..i`, entries of one
fork share no byte, and entries of two forks share bytes only as read locks.

The proofs use the equivalent `Wf` (`wellFormed_iff`), which speaks about the list as a
whole: the array is a fixed point of the recomputation of the reach.  `adf_lock_reach`
restores that fixed point from any index whose predecessors are already right
(`adfLockReach_eq`), which is all an insertion or a removal needs. -/

namespace Netatalk.AdLock

open List

/-! ### Entries -/

variable {e e' : AdfLock} {i j : ℕ} {l : List AdfLock} {lock : Flock} {r : ℤ}

namespace AdfLock

/-- The entry holds the byte. -/
def Covers (e : AdfLock) (b : ℤ) : Prop := e.start ≤ b ∧ b ≤ e.last

instance (e : AdfLock) (b : ℤ) : Decidable (e.Covers b) :=
  inferInstanceAs (Decidable (e.start ≤ b ∧ b ≤ e.last))

/-- What `ad_lock` records: a read or write lock of positive length inside the offsets. -/
def Ok (e : AdfLock) : Prop :=
  0 ≤ e.start ∧ 0 < e.lock.lLen ∧ e.last ≤ lockTop ∧ e.lock.lType ≠ .unlck

/-- Two entries share a byte only as read locks of different forks. -/
def Compatible (e e' : AdfLock) : Prop :=
  ∀ b, e.Covers b → e'.Covers b →
    e.user ≠ e'.user ∧ e.lock.lType = .rdlck ∧ e'.lock.lType = .rdlck

theorem Compatible.symm (h : e.Compatible e') : e'.Compatible e := by
  intro b h' h''
  obtain ⟨hu, ht, ht'⟩ := h b h'' h'
  exact ⟨hu.symm, ht', ht⟩

theorem last_eq (h : e.Ok) : e.last = e.start + (e.lock.lLen - 1) := by
  unfold last start adfLockLast
  rw [if_pos h.2.1]

theorem start_le_last (h : e.Ok) : e.start ≤ e.last := by
  have := last_eq h
  have := h.2.1
  omega

/-- The entry as a range of a lock table. -/
def span (e : AdfLock) : Span := ⟨e.start, e.last, e.lock.lType = .wrlck⟩

theorem Compatible.shares (h : e.Compatible e') : e.span.Shares e'.span := by
  intro b h' h''
  obtain ⟨_, ht, ht'⟩ := h b h' h''
  simp [span, ht, ht']

end AdfLock

/-! ### The invariant -/

/-- The lock array is well formed. -/
structure WellFormed (arr : List AdfLock) : Prop where
  ok : ∀ e ∈ arr, e.Ok
  sorted : ∀ i j (hi : i < arr.length) (hj : j < arr.length), i ≤ j → arr[i].start ≤ arr[j].start
  reach : ∀ i (hi : i < arr.length),
    IsGreatest {x | ∃ j, ∃ hj : j < arr.length, j ≤ i ∧ x = arr[j].last} arr[i].reach
  sameFork : ∀ i j (hi : i < arr.length) (hj : j < arr.length), i ≠ j →
    arr[i].user = arr[j].user → ∀ b, ¬ (arr[i].Covers b ∧ arr[j].Covers b)
  otherFork : ∀ i j (hi : i < arr.length) (hj : j < arr.length), arr[i].user ≠ arr[j].user →
    ∀ b, arr[i].Covers b → arr[j].Covers b →
      arr[i].lock.lType = .rdlck ∧ arr[j].lock.lType = .rdlck

/-- The same, over the list as a whole. -/
structure Wf (arr : List AdfLock) : Prop where
  ok : ∀ e ∈ arr, e.Ok
  sorted : arr.Pairwise (fun e e' => e.start ≤ e'.start)
  reach : reachLoop (-1) arr = arr
  compat : arr.Pairwise AdfLock.Compatible

/-! ### Recomputing the reach -/

/-- The reach after the entries of `l`, from the reach before them. -/
def reachEnd (r : ℤ) (l : List AdfLock) : ℤ := l.foldl (fun r e => max r e.last) r

theorem reachLoop_cons (es : List AdfLock) :
    reachLoop r (e :: es) = { e with reach := max r e.last } :: reachLoop (max r e.last) es := by
  have h : (if e.last > r then e.last else r) = max r e.last := by
    split_ifs with h <;> omega
  simp only [reachLoop, h]

theorem reachLoop_append : ∀ (r : ℤ) (l l' : List AdfLock),
    reachLoop r (l ++ l') = reachLoop r l ++ reachLoop (reachEnd r l) l'
  | _, [], _ => rfl
  | r, e :: es, l' => by
      rw [List.cons_append, reachLoop_cons, reachLoop_cons, reachLoop_append _ es l']
      rfl

theorem reachLoop_length : ∀ (r : ℤ) (l : List AdfLock), (reachLoop r l).length = l.length
  | _, [] => rfl
  | r, e :: es => by
      rw [reachLoop_cons, List.length_cons, List.length_cons, reachLoop_length _ es]

theorem reachLoop_idem (r' : ℤ) : reachLoop r (reachLoop r' l) = reachLoop r l := by
  induction l generalizing r r' with
  | nil => rfl
  | cons e es ih =>
    rw [reachLoop_cons, reachLoop_cons, ih, reachLoop_cons]
    rfl

theorem reachLoop_getLast? : ((reachLoop r l).getLast?).elim r AdfLock.reach = reachEnd r l := by
  rcases eq_nil_or_concat l with rfl | ⟨l', e, rfl⟩
  · rfl
  · rw [concat_eq_append, reachLoop_append, reachLoop_cons, reachLoop]
    simp [reachEnd]

variable {arr : List AdfLock}

/-- Recomputing from an index whose predecessors are right recomputes the whole array. -/
theorem adfLockReach_eq (hi : i ≤ arr.length) (h : reachLoop (-1) (arr.take i) = arr.take i) :
    adfLockReach arr i = reachLoop (-1) arr := by
  have hr : reachBefore arr i = reachEnd (-1) (arr.take i) := by
    rw [← reachLoop_getLast?, h]
    cases i with
    | zero => rfl
    | succ j =>
      rw [getLast?_take]
      have hj : arr[j]? = some arr[j] := getElem?_eq_getElem (by omega)
      simp [reachBefore, hj]
  unfold adfLockReach
  conv_rhs => rw [← take_append_drop i arr, reachLoop_append, h]
  rw [hr]

theorem forall_mem_reachLoop {P : AdfLock → Prop} (hP : ∀ e r, P e → P { e with reach := r })
    (r : ℤ) (h : ∀ e ∈ l, P e) : ∀ e ∈ reachLoop r l, P e := by
  induction l generalizing r with
  | nil => exact h
  | cons e es ih =>
    intro e' he'
    rcases mem_cons.mp he' with rfl | he'
    · exact hP e _ (h e (by simp))
    · exact ih _ (fun x hx => h x (by simp [hx])) e' he'

theorem pairwise_reachLoop {R : AdfLock → AdfLock → Prop}
    (hR : ∀ e e' r r', R e e' → R { e with reach := r } { e' with reach := r' }) (r : ℤ)
    (h : l.Pairwise R) : (reachLoop r l).Pairwise R := by
  induction l generalizing r with
  | nil => exact h
  | cons e es ih =>
    rw [reachLoop_cons]
    rw [pairwise_cons] at h ⊢
    refine ⟨?_, ih _ h.2⟩
    apply forall_mem_reachLoop
    · intro e' r' he'
      exact hR { e with reach := max r e.last } e' _ r' he'
    · intro e' he'
      exact hR e e' _ e'.reach (h.1 e' he')

/-- A sorted, compatible list becomes a well-formed array once its reach is recomputed. -/
theorem wf_reachLoop (ok : ∀ e ∈ arr, e.Ok)
    (sorted : arr.Pairwise (fun e e' => e.start ≤ e'.start))
    (compat : arr.Pairwise AdfLock.Compatible) : Wf (reachLoop (-1) arr) where
  ok := forall_mem_reachLoop (fun _ _ h => h) _ ok
  sorted := pairwise_reachLoop (fun _ _ _ _ h => h) _ sorted
  reach := reachLoop_idem _
  compat := pairwise_reachLoop (fun _ _ _ _ h => h) _ compat

theorem Wf.reach_take (h : Wf arr) (i : ℕ) : reachLoop (-1) (arr.take i) = arr.take i := by
  have e := h.reach
  conv_lhs at e => rw [← take_append_drop i arr, reachLoop_append]
  have := congrArg (List.take i) e
  by_cases hi : i ≤ arr.length
  · rwa [take_append_of_le_length (by rw [reachLoop_length]; simp [hi]),
      take_of_length_le (by rw [reachLoop_length]; simp)] at this
  · rw [take_of_length_le (by omega)]
    exact h.reach

/-! ### Indexes -/

theorem reachLoop_getElem (r : ℤ) (i : ℕ) (hi : i < l.length) (hi' : i < (reachLoop r l).length) :
    (reachLoop r l)[i] = { l[i] with reach := reachEnd r (l.take (i + 1)) } := by
  induction l generalizing r i with
  | nil => simp at hi
  | cons e es ih =>
    cases i with
    | zero => simp [reachLoop_cons, reachEnd]
    | succ i =>
      simp only [reachLoop_cons, getElem_cons_succ]
      rw [ih _ i (by simpa using hi)]
      rfl

theorem le_reachEnd : r ≤ reachEnd r l := by
  induction l generalizing r with
  | nil => exact le_refl r
  | cons e es ih => exact (le_max_left r e.last).trans (ih (r := max r e.last))

theorem last_le_reachEnd (h : e ∈ l) : e.last ≤ reachEnd r l := by
  induction l generalizing r with
  | nil => cases h
  | cons e' es ih =>
    rcases mem_cons.mp h with rfl | h
    · exact (le_max_right r e.last).trans (le_reachEnd (r := max r e.last) (l := es))
    · exact ih h

theorem reachEnd_cases (r : ℤ) (l : List AdfLock) :
    reachEnd r l = r ∨ ∃ e ∈ l, reachEnd r l = e.last := by
  induction l generalizing r with
  | nil => exact .inl rfl
  | cons e es ih =>
    rcases ih (max r e.last) with h | ⟨e', he', h⟩
    · rcases max_choice r e.last with hm | hm
      · left
        exact h.trans hm
      · right
        exact ⟨e, by simp, h.trans hm⟩
    · right
      exact ⟨e', by simp [he'], h⟩

section
variable {arr : List AdfLock} (h : Wf arr) (hi : i < arr.length)
include h hi

theorem Wf.reach_eq : arr[i].reach = reachEnd (-1) (arr.take (i + 1)) := by
  have hreach := reachLoop_getElem (-1) i hi (by rwa [reachLoop_length])
  simp only [h.reach] at hreach
  exact congrArg AdfLock.reach hreach

section
variable (hj : j < arr.length)
include hj

/-- Every entry up to index `i` ends at or before the reach stored there. -/
theorem Wf.last_le_reach (hji : j ≤ i) : arr[j].last ≤ arr[i].reach := by
  rw [h.reach_eq hi]
  apply last_le_reachEnd
  exact mem_take_iff_getElem.mpr ⟨j, by omega, rfl⟩

theorem Wf.reach_mono (hij : i ≤ j) : arr[i].reach ≤ arr[j].reach := by
  rw [h.reach_eq hj, h.reach_eq hi]
  rw [show arr.take (j + 1) = arr.take (i + 1) ++ (arr.drop (i + 1)).take (j - i) by
    rw [← take_add]; congr 1; omega]
  unfold reachEnd
  rw [foldl_append]
  exact le_reachEnd

theorem Wf.start_mono (hij : i ≤ j) : arr[i].start ≤ arr[j].start := by
  rcases Nat.lt_or_eq_of_le hij with hlt | rfl
  · exact pairwise_iff_getElem.mp h.sorted i j hi hj hlt
  · exact le_refl _

theorem Wf.compatible (hij : i ≠ j) : arr[i].Compatible arr[j] := by
  rcases Nat.lt_or_gt_of_ne hij with hlt | hgt
  · exact pairwise_iff_getElem.mp h.compat i j hi hj hlt
  · exact (pairwise_iff_getElem.mp h.compat j i hj hi hgt).symm

end

end

theorem wellFormed_iff : WellFormed arr ↔ Wf arr := by
  constructor
  · intro h
    refine ⟨h.ok, ?_, ?_, ?_⟩
    · exact pairwise_iff_getElem.mpr fun i j hi hj hij => h.sorted i j hi hj hij.le
    · apply ext_getElem (reachLoop_length _ _)
      intro i hi' hi
      have hr : arr[i].reach = reachEnd (-1) (arr.take (i + 1)) := by
        obtain ⟨⟨j, hj, hji, hx⟩, hub⟩ := h.reach i hi
        apply le_antisymm
        · rw [hx]
          exact last_le_reachEnd (mem_take_iff_getElem.mpr ⟨j, by omega, rfl⟩)
        · rcases reachEnd_cases (-1) (arr.take (i + 1)) with hm | ⟨e, he, hm⟩
          · have hok := h.ok arr[j] (getElem_mem hj)
            have := AdfLock.start_le_last hok
            have := hok.1
            omega
          · obtain ⟨k, hk, rfl⟩ := mem_take_iff_getElem.mp he
            rw [hm]
            exact hub ⟨k, by omega, by omega, rfl⟩
      rw [reachLoop_getElem _ _ hi hi', ← hr]
    · exact pairwise_iff_getElem.mpr fun i j hi hj hij b hb hb' => by
        by_cases hu : arr[i].user = arr[j].user
        · exact absurd ⟨hb, hb'⟩ (h.sameFork i j hi hj hij.ne hu b)
        · exact ⟨hu, h.otherFork i j hi hj hu b hb hb'⟩
  · intro h
    refine ⟨h.ok, fun i j hi hj hij => h.start_mono hi hj hij, ?_, ?_, ?_⟩
    · intro i hi
      constructor
      · rcases reachEnd_cases (-1) (arr.take (i + 1)) with hm | ⟨e, he, hm⟩
        · have hok := h.ok arr[i] (getElem_mem hi)
          have h₁ := h.last_le_reach hi hi (le_refl i)
          have h₂ := AdfLock.start_le_last hok
          have h₃ := hok.1
          rw [h.reach_eq hi] at h₁
          omega
        · obtain ⟨k, hk, rfl⟩ := mem_take_iff_getElem.mp he
          exact ⟨k, by omega, by omega, by rw [h.reach_eq hi, hm]⟩
      · rintro x ⟨j, hj, hji, rfl⟩
        exact h.last_le_reach hi hj hji
    · rintro i j hi hj hij hu b ⟨hb, hb'⟩
      exact (h.compatible hi hj hij b hb hb').1 hu
    · intro i j hi hj hu b hb hb'
      have hij : i ≠ j := by
        rintro rfl
        exact hu rfl
      exact (h.compatible hi hj hij b hb hb').2

theorem wf_nil : Wf [] := ⟨by simp, List.Pairwise.nil, rfl, List.Pairwise.nil⟩

/-! ### Changes of the array -/

/-- The ranges the array records. -/
def spans (arr : List AdfLock) : List Span := arr.map AdfLock.span

theorem spans_reachLoop (r : ℤ) : spans (reachLoop r l) = spans l := by
  induction l generalizing r with
  | nil => rfl
  | cons e es ih =>
    exact congrArg (e.span :: ·) (ih _)

theorem covers_iff_span {b : ℤ} : (∀ x ∈ spans arr, ¬ x.Covers b) ↔ ∀ e ∈ arr, ¬ e.Covers b := by
  simp [spans, Span.Covers, AdfLock.span, AdfLock.Covers]

theorem insertIdx_eq {α : Type} (x : α) : ∀ (l : List α) (i : ℕ), i ≤ l.length →
    l.insertIdx i x = l.take i ++ x :: l.drop i
  | _, 0, _ => rfl
  | [], i + 1, h => by simp at h
  | y :: l, i + 1, h => by
      have := insertIdx_eq x l i (by simpa using h)
      simp [insertIdx_succ_cons, this]

theorem reachLoop_set (hi : i < l.length)
    (hlast : ({ l[i] with lock := lock } : AdfLock).last = l[i].last) (h : reachLoop r l = l) :
    reachLoop r (l.set i { l[i] with lock := lock }) = l.set i { l[i] with lock := lock } := by
  induction l generalizing r i with
  | nil => simp at hi
  | cons e es ih =>
    rw [reachLoop_cons] at h
    obtain ⟨h₁, h₂⟩ := cons.inj h
    have hr : max r e.last = e.reach := congrArg AdfLock.reach h₁
    cases i with
    | zero =>
      simp only [getElem_cons_zero] at hlast
      rw [set_cons_zero, getElem_cons_zero, reachLoop_cons, hlast, h₂, hr]
    | succ =>
      rw [set_cons_succ, getElem_cons_succ, reachLoop_cons, h₁,
        ih (by simpa using hi) hlast h₂]

section changes
variable {arr : List AdfLock} (h : Wf arr)
include h

/-- Dropping an entry and recomputing from its index keeps the array well formed. -/
theorem Wf.erase (hi : i < arr.length) :
    adfLockReach (arr.eraseIdx i) i = reachLoop (-1) (arr.eraseIdx i) ∧
      Wf (adfLockReach (arr.eraseIdx i) i) := by
  have hsub := eraseIdx_sublist arr i
  have hlen := length_eraseIdx_of_lt hi
  have htake : (arr.eraseIdx i).take i = arr.take i := by
    rw [eraseIdx_eq_take_drop_succ, take_append_of_le_length (by simp; omega),
      take_take, min_self]
  have e : adfLockReach (arr.eraseIdx i) i = reachLoop (-1) (arr.eraseIdx i) := by
    apply adfLockReach_eq (by omega)
    rw [htake]
    exact h.reach_take i
  refine ⟨e, ?_⟩
  rw [e]
  exact wf_reachLoop (fun x hx => h.ok x (hsub.subset hx)) (h.sorted.sublist hsub)
    (h.compat.sublist hsub)

/-- Inserting a compatible entry at its place in the order of starts, and recomputing from
there, keeps the array well formed. -/
theorem Wf.insert {x : AdfLock} (hi : i ≤ arr.length) (hx : x.Ok)
    (hlo : ∀ e ∈ arr.take i, e.start ≤ x.start) (hhi : ∀ e ∈ arr.drop i, x.start ≤ e.start)
    (hc : ∀ e ∈ arr, x.Compatible e) :
    adfLockReach (arr.insertIdx i x) i = reachLoop (-1) (arr.insertIdx i x) ∧
      Wf (adfLockReach (arr.insertIdx i x) i) := by
  have hins := insertIdx_eq x arr i hi
  have htake : (arr.insertIdx i x).take i = arr.take i := by
    rw [hins, take_append_of_le_length (by simp; omega), take_take, min_self]
  have e : adfLockReach (arr.insertIdx i x) i = reachLoop (-1) (arr.insertIdx i x) := by
    apply adfLockReach_eq
    · rw [length_insertIdx_of_le_length hi]
      omega
    · rw [htake]
      exact h.reach_take i
  have hmem : ∀ y ∈ arr.insertIdx i x, y = x ∨ y ∈ arr := by
    intro y hy
    exact (mem_insertIdx hi).mp hy
  have hsplit : ∀ {R : AdfLock → AdfLock → Prop}, arr.Pairwise R → (∀ y ∈ arr.take i, R y x) →
      (∀ y ∈ arr.drop i, R x y) → (arr.insertIdx i x).Pairwise R := by
    intro R hp h₁ h₂
    rw [← take_append_drop i arr, pairwise_append] at hp
    rw [hins, pairwise_append, pairwise_cons]
    refine ⟨hp.1, ⟨h₂, hp.2.1⟩, ?_⟩
    intro y hy z hz
    rcases mem_cons.mp hz with rfl | hz
    · exact h₁ y hy
    · exact hp.2.2 y hy z hz
  refine ⟨e, ?_⟩
  rw [e]
  apply wf_reachLoop
  · intro y hy
    rcases hmem y hy with rfl | hy
    · exact hx
    · exact h.ok y hy
  · exact hsplit h.sorted hlo hhi
  · exact hsplit h.compat (fun y hy => (hc y (mem_of_mem_take hy)).symm)
      (fun y hy => hc y (mem_of_mem_drop hy))

/-- Changing the type of an entry over the same range keeps the array well formed when no
other entry then conflicts with it; its reach stands. -/
theorem Wf.retype (hi : i < arr.length)
    (hs : lock.lStart = arr[i].lock.lStart) (hl : lock.lLen = arr[i].lock.lLen)
    (ht : lock.lType ≠ .unlck)
    (hc : ∀ j (hj : j < arr.length), j ≠ i →
      ({ arr[i] with lock := lock } : AdfLock).Compatible arr[j]) :
    Wf (arr.set i { arr[i] with lock := lock }) := by
  have hlast : ({ arr[i] with lock := lock } : AdfLock).last = arr[i].last := by
    simp [AdfLock.last, hs, hl]
  have hpair : ∀ {R : AdfLock → AdfLock → Prop}, (∀ {x y}, R x y → R y x) →
      arr.Pairwise R → (∀ j (hj : j < arr.length), j ≠ i → R { arr[i] with lock := lock } arr[j]) →
      (arr.set i { arr[i] with lock := lock }).Pairwise R := by
    intro R hsymm hp h₁
    rw [pairwise_iff_getElem] at hp ⊢
    intro j k hj hk hjk
    rw [length_set] at hj hk
    rw [getElem_set, getElem_set]
    split_ifs with h₂ h₃ h₃
    · omega
    · exact h₁ k hk (by omega)
    · exact hsymm (h₁ j hj (by omega))
    · exact hp j k hj hk hjk
  refine ⟨?_, ?_, ?_, ?_⟩
  · intro y hy
    rcases mem_or_eq_of_mem_set hy with hy | rfl
    · exact h.ok y hy
    · have hok := h.ok arr[i] (getElem_mem hi)
      refine ⟨?_, ?_, ?_, ht⟩
      · have := hok.1
        simpa [AdfLock.start, hs] using this
      · have := hok.2.1
        simpa [hl] using this
      · rw [hlast]
        exact hok.2.2.1
  · rw [pairwise_iff_getElem]
    intro j k hj hk hjk
    rw [length_set] at hj hk
    have := h.start_mono hj hk hjk.le
    rw [getElem_set, getElem_set]
    split_ifs with h₂ h₃ h₃
    · omega
    · subst h₂
      simpa [AdfLock.start, hs] using this
    · subst h₃
      simpa [AdfLock.start, hs] using this
    · exact this
  · exact reachLoop_set hi hlast h.reach
  · exact hpair AdfLock.Compatible.symm h.compat hc

end changes

end Netatalk.AdLock
