import Netatalk.AdLockArray

/-! # The window of a byte range

`adf_lock_window` finds by bisection the indexes of the entries that can overlap a range: an
entry before the window ends before the range starts, and one behind it starts past the
range's last byte (`mem_window`).  The scans `adf_findlock` and `adf_findxlock` of the window
therefore miss no entry of the array that shares a byte with the range
(`findWindow_none`, `findWindow_some`): they answer what a scan of the whole array with the
test `SharesByte` answers, and every offset they form is one `off_t` holds (`find_eq_scan`). -/

namespace Netatalk.AdLock

open List AdfLock

/-- A range that has passed the callers' checks: it starts at or past byte zero and its last
byte fits. -/
structure Admissible (off len : ℤ) : Prop where
  nonneg : 0 ≤ off
  len_nonneg : 0 ≤ len
  last_le : adfLockLast off len ≤ lockTop

variable {b len off : ℤ} {e : AdfLock} {i : ℕ} {p : AdfLock → Bool}

theorem AdfLock.Ok.admissible (h : e.Ok) : Admissible e.lock.lStart e.lock.lLen :=
  ⟨h.1, h.2.1.le, h.2.2.1⟩

/-- `OVERLAP` of a range and an entry: the two share a byte. -/
theorem overlap_iff (hr : Admissible off len) (he : e.Ok) :
    overlap off len e.lock.lStart e.lock.lLen = true ↔
      e.start ≤ adfLockLast off len ∧ off ≤ e.last := by
  have hl := last_eq he
  obtain ⟨h₁, h₂, h₃, _⟩ := he
  obtain ⟨h₄, h₅, _⟩ := hr
  unfold start at *
  unfold overlap adfLockLast
  simp only [Bool.or_eq_true, Bool.and_eq_true, decide_eq_true_eq]
  split_ifs with hlen
  · omega
  · constructor
    · rintro ((h | h) | h) <;> omega
    · omega

section window
variable {arr : List AdfLock} (h : Wf arr)
include h

theorem Wf.initial_key (t : ℤ) (byReach : Bool) :
    Initial (fun i => (arr[i]?).any fun e => e.key byReach < t) arr.length := by
  intro i j hij hj hlt
  have hi := hij.trans_lt hj
  simp only [getElem?_eq_getElem hi, getElem?_eq_getElem hj, Option.any_some,
    decide_eq_true_eq] at hlt ⊢
  have hr := h.reach_mono hi hj hij
  have hs := h.start_mono hi hj hij
  unfold key at *
  split_ifs at * <;> omega

theorem Wf.lt_lower_iff (t : ℤ) (byReach : Bool) (hi : i < arr.length) :
    i < adfLockLower arr t byReach ↔ arr[i].key byReach < t := by
  unfold adfLockLower
  rw [lt_lowerBound_iff (h.initial_key t byReach) hi]
  simp [getElem?_eq_getElem hi]

theorem Wf.lower_le (t : ℤ) (byReach : Bool) : adfLockLower arr t byReach ≤ arr.length :=
  lowerBound_le (h.initial_key t byReach)

section
variable (off len : ℤ) (hi : i < arr.length)
include hi

theorem Wf.last_lt_of_lt_window (hw : i < (adfLockWindow arr off len).1) : arr[i].last < off := by
  have := (h.lt_lower_iff off true hi).mp hw
  have := h.last_le_reach hi hi (le_refl i)
  simp only [key, if_true] at *
  omega

theorem Wf.start_le_of_lt_window (hw : i < (adfLockWindow arr off len).2) :
    arr[i].start ≤ adfLockLast off len := by
  unfold adfLockWindow at hw
  simp only at hw
  split_ifs at hw with hlast
  · have := (h.lt_lower_iff _ false hi).mp hw
    simp only [key, Bool.false_eq_true, if_false] at this
    omega
  · have hok := h.ok arr[i] (getElem_mem hi)
    have := start_le_last hok
    have := hok.2.2.1
    omega

theorem Wf.lt_start_of_window_le (hw : (adfLockWindow arr off len).2 ≤ i) :
    adfLockLast off len < arr[i].start := by
  unfold adfLockWindow at hw
  simp only at hw
  split_ifs at hw with hlast
  · have := mt (h.lt_lower_iff (adfLockLast off len + 1) false hi).mpr (by omega)
    simp only [key, Bool.false_eq_true, if_false] at this
    omega
  · omega

end

/-- An entry that shares a byte with the range lies in its window. -/
theorem Wf.mem_window (hi : i < arr.length) (h₁ : off ≤ b)
    (h₂ : b ≤ adfLockLast off len) (hb : arr[i].Covers b) :
    (adfLockWindow arr off len).1 ≤ i ∧ i < (adfLockWindow arr off len).2 := by
  obtain ⟨h₃, h₄⟩ := hb
  constructor
  · by_contra hlt
    have := h.last_lt_of_lt_window off len hi (by omega)
    omega
  · by_contra hge
    have := h.lt_start_of_window_le off len hi (by omega)
    omega

theorem Wf.window_le (hr : off ≤ adfLockLast off len) :
    (adfLockWindow arr off len).1 ≤ (adfLockWindow arr off len).2 := by
  by_contra hlt
  have hi : (adfLockWindow arr off len).2 < arr.length := by
    have : (adfLockWindow arr off len).1 ≤ arr.length := h.lower_le off true
    omega
  have h₁ := h.last_lt_of_lt_window off len hi (by omega)
  have h₂ := h.lt_start_of_window_le off len hi (le_refl _)
  have h₃ := start_le_last (h.ok _ (getElem_mem hi))
  omega

/-! ### The scans -/

theorem Wf.findWindow_none (hr : Admissible off len)
    (hf : findWindow arr off len p = none) (he : e ∈ arr) (hp : p e = true)
    (h₁ : off ≤ b) (h₂ : b ≤ adfLockLast off len) : ¬ e.Covers b := by
  intro hb
  obtain ⟨i, hi, rfl⟩ := mem_iff_getElem.mp he
  obtain ⟨hlo, hhi⟩ := h.mem_window hi h₁ h₂ hb
  unfold findWindow at hf
  rw [find?_range'_eq_none] at hf
  have := hf i hlo (by omega)
  obtain ⟨h₃, h₄⟩ := hb
  simp [getElem?_eq_getElem hi, hp, (overlap_iff hr (h.ok _ he)).mpr (by omega)] at this

end window

variable {arr : List AdfLock}

theorem findWindow_some (hf : findWindow arr off len p = some i) :
    ∃ hi : i < arr.length, p arr[i] = true ∧
      overlap off len arr[i].lock.lStart arr[i].lock.lLen = true := by
  have := find?_some hf
  cases hg : arr[i]? with
  | none => simp [hg] at this
  | some =>
    obtain ⟨hi, rfl⟩ := List.getElem?_eq_some_iff.mp hg
    simp only [hg, Option.any_some, Bool.and_eq_true] at this
    exact ⟨hi, this⟩

/-! ### The scan of the whole array -/

/-- The bytes of a range, where a zero length runs on without end. -/
def RangeHas (off len b : ℤ) : Prop := off ≤ b ∧ (len = 0 ∨ b < off + len)

instance (off len b : ℤ) : Decidable (RangeHas off len b) := inferInstanceAs (Decidable (_ ∧ _))

/-- The two ranges share a byte. -/
def SharesByte (a alen b blen : ℤ) : Prop := ∃ x, RangeHas a alen x ∧ RangeHas b blen x

theorem sharesByte_iff {a alen blen : ℤ} :
    SharesByte a alen b blen ↔ RangeHas a alen (max a b) ∧ RangeHas b blen (max a b) := by
  constructor
  · rintro ⟨x, ⟨h₁, h₂⟩, h₃, h₄⟩
    exact ⟨⟨by omega, by omega⟩, by omega, by omega⟩
  · intro h
    exact ⟨max a b, h⟩

instance (a alen b blen : ℤ) : Decidable (SharesByte a alen b blen) :=
  decidable_of_iff _ sharesByte_iff.symm

theorem overlap_iff_sharesByte (hr : Admissible off len) (he : e.Ok) :
    overlap off len e.lock.lStart e.lock.lLen = true ↔
      SharesByte off len e.lock.lStart e.lock.lLen := by
  have hlen := hr.len_nonneg
  have hpos := he.2.1
  rw [sharesByte_iff]
  unfold overlap RangeHas
  simp only [Bool.or_eq_true, Bool.and_eq_true, decide_eq_true_eq]
  omega

/-- The window's scan finds what a scan of the whole array finds. -/
theorem Wf.findWindow_eq (h : Wf arr) (hr : Admissible off len) (hle : off ≤ adfLockLast off len) :
    findWindow arr off len p =
      arr.findIdx? fun e => p e && SharesByte off len e.lock.lStart e.lock.lLen := by
  have iff : ∀ e ∈ arr, (p e && decide (SharesByte off len e.lock.lStart e.lock.lLen)) =
      (p e && overlap off len e.lock.lStart e.lock.lLen) := by
    intro e he
    rw [Bool.eq_iff_iff, Bool.and_eq_true, Bool.and_eq_true, decide_eq_true_eq,
      overlap_iff_sharesByte hr (h.ok e he)]
  -- an entry that overlaps the range shares the larger start with it
  have hit : ∀ e ∈ arr, overlap off len e.lock.lStart e.lock.lLen = true →
      ∃ b, off ≤ b ∧ b ≤ adfLockLast off len ∧ e.Covers b := by
    intro e he ho
    have hl := start_le_last (h.ok e he)
    obtain ⟨h₁, h₂⟩ := (overlap_iff hr (h.ok e he)).mp ho
    exact ⟨max off e.start, le_max_left _ _, max_le hle h₁, le_max_right _ _, max_le h₂ hl⟩
  cases hf : findWindow arr off len p with
  | none =>
    symm
    rw [findIdx?_eq_none_iff]
    intro e he
    rw [iff e he, Bool.and_eq_false_iff]
    by_contra hc
    rw [not_or, Bool.not_eq_false, Bool.not_eq_false] at hc
    obtain ⟨b, h₁, h₂, hb⟩ := hit e he hc.2
    exact h.findWindow_none hr hf he hc.1 h₁ h₂ hb
  | some =>
    symm
    obtain ⟨hi, hp, ho⟩ := findWindow_some hf
    rw [findIdx?_eq_some_iff_getElem]
    refine ⟨hi, ?_, ?_⟩
    · rw [iff _ (getElem_mem hi), hp, ho, Bool.and_self]
    · intro j hj hc
      have hjl := hj.trans hi
      rw [iff _ (getElem_mem hjl), Bool.and_eq_true] at hc
      obtain ⟨b, h₁, h₂, hb⟩ := hit _ (getElem_mem hjl) hc.2
      have hfirst := (find?_range'_eq_some.mp hf).2.2 j (h.mem_window hjl h₁ h₂ hb).1 hj
      simp [getElem?_eq_getElem hjl, hc.1, hc.2] at hfirst

/-- The values `adf_lock_last` forms. -/
def lastSteps (off len : ℤ) : List ℤ := if len > 0 then [len - 1, off + (len - 1)] else []

/-- The offsets the two scans form: the range's last byte and the byte behind it, and the
differences `OVERLAP` compares, for every entry. -/
def findSteps (arr : List AdfLock) (off len : ℤ) : List ℤ :=
  lastSteps off len ++
    (if adfLockLast off len < lockTop then [adfLockLast off len + 1] else []) ++
    arr.flatMap fun e => [e.lock.lStart - off, off - e.lock.lStart]

theorem findSteps_bound (h : Wf arr) (hr : Admissible off len) (hoff : off ≤ lockTop) :
    ∀ v ∈ findSteps arr off len, -lockTop ≤ v ∧ v ≤ lockTop := by
  obtain ⟨h₁, h₂, h₃⟩ := hr
  intro v hv
  unfold findSteps lastSteps at hv
  simp only [mem_append, mem_flatMap] at hv
  unfold adfLockLast at hv h₃
  rcases hv with (hv | hv) | ⟨e, he, hv⟩
  · split_ifs at hv h₃ with hlen
    · simp only [mem_cons, not_mem_nil, or_false] at hv
      omega
    · cases hv
  · split_ifs at hv h₃ with hlen hlast <;> simp only [mem_singleton, not_mem_nil] at hv
    all_goals omega
  · have hok := h.ok e he
    have hle := start_le_last hok
    have hs := hok.1
    have hl := hok.2.2.1
    unfold start at hs hle
    simp only [mem_cons, not_mem_nil, or_false] at hv
    omega

/-- On a well-formed array and an admissible range, `adf_findlock` and `adf_findxlock` return the
first index a scan of the whole array finds, and no offset they form overflows. -/
theorem find_eq_scan {arr : List AdfLock} (h : WellFormed arr) {off len : ℤ}
    (hr : Admissible off len) (hoff : off ≤ lockTop) (fork : ℤ) (rd wr : Bool) :
    (adfFindlock arr fork rd wr off len = arr.findIdx? fun e =>
      (e.inMask rd wr && e.user = fork) && SharesByte off len e.lock.lStart e.lock.lLen) ∧
    (adfFindxlock arr fork rd wr off len = arr.findIdx? fun e =>
      (e.inMask rd wr && e.user ≠ fork) && SharesByte off len e.lock.lStart e.lock.lLen) ∧
    ∀ v ∈ findSteps arr off len, -lockTop ≤ v ∧ v ≤ lockTop := by
  have hwf := wellFormed_iff.mp h
  have hle : off ≤ adfLockLast off len := by
    unfold adfLockLast
    split_ifs <;> omega
  exact ⟨hwf.findWindow_eq hr hle, hwf.findWindow_eq hr hle, findSteps_bound hwf hr hoff⟩

/-- Two forks' read entries, the second one up to the largest offset. -/
def topEntries : List AdfLock := [⟨⟨.rdlck, 5, 5⟩, 1, 9⟩, ⟨⟨.rdlck, lockTop - 3, 4⟩, 2, lockTop⟩]

/-- A range of length zero at the largest offset meets the second entry. -/
theorem find_eq_scan_topEntries : Admissible lockTop 0 ∧
    adfFindlock topEntries 2 true true lockTop 0 = some 1 ∧
    adfFindxlock topEntries 2 true true lockTop 0 = none := by
  have hwf : Wf topEntries := by
    refine ⟨?_, by simp [topEntries, start, lockTop], by decide, ?_⟩
    · unfold AdfLock.Ok topEntries
      decide
    · simp only [topEntries, pairwise_cons, mem_singleton, forall_eq, not_mem_nil,
        false_imp_iff, implies_true, List.Pairwise.nil, and_true]
      rintro b ⟨_, h₁⟩ ⟨h₂, _⟩
      simp [last, start, adfLockLast, lockTop] at h₁ h₂
      omega
  have hr : Admissible lockTop 0 := ⟨by decide, le_refl 0, le_refl _⟩
  have hscan := find_eq_scan (wellFormed_iff.mpr hwf) hr le_rfl 2 true true
  exact ⟨hr, hscan.1.trans (by decide), hscan.2.1.trans (by decide)⟩

end Netatalk.AdLock
