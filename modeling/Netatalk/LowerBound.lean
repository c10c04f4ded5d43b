import Mathlib.Data.Nat.Basic

/-! # Lower bounds by bisection

`lowerLoop p fuel lo hi` is the loop `while (lo < hi) { mid = lo + (hi - lo) / 2; … }` that
looks for the first index of `[lo, hi)` at which the predicate `p` ("the key lies below the
target") fails.  When `p` holds on an initial segment only (`Initial p n`), the search over
`[0, n)` returns the length of that segment (`lowerBound_spec`), so `i` lies below the
result exactly when `p i` holds (`lt_lowerBound_iff`). -/

namespace Netatalk

/-- The bisection loop; every round at least halves `hi - lo`, so `hi - lo` rounds suffice. -/
def lowerLoop (p : ℕ → Bool) : ℕ → ℕ → ℕ → ℕ
  | 0, lo, _ => lo
  | fuel + 1, lo, hi =>
    if lo < hi then
      let mid := lo + (hi - lo) / 2
      if p mid then lowerLoop p fuel (mid + 1) hi else lowerLoop p fuel lo mid
    else lo

/-- First index of `[0, n)` at which `p` fails, or `n`. -/
def lowerBound (p : ℕ → Bool) (n : ℕ) : ℕ := lowerLoop p n 0 n

/-- Below `n`, the predicate holds on an initial segment. -/
def Initial (p : ℕ → Bool) (n : ℕ) : Prop :=
  ∀ i j, i ≤ j → j < n → p j = true → p i = true

variable {n : ℕ} {p : ℕ → Bool}

theorem lowerLoop_spec (hp : Initial p n) (fuel lo hi : ℕ) (hf : hi - lo ≤ fuel) (hle : lo ≤ hi)
    (hn : hi ≤ n) (hlo : ∀ i < lo, p i = true) (hhi : ∀ i, hi ≤ i → i < n → p i = false) :
    lowerLoop p fuel lo hi ≤ n ∧ (∀ i < lowerLoop p fuel lo hi, p i = true) ∧
      ∀ i, lowerLoop p fuel lo hi ≤ i → i < n → p i = false := by
  fun_induction lowerLoop p fuel lo hi with
  | case1 lo hi | case4 _ lo hi =>
    obtain rfl : lo = hi := by omega
    exact ⟨hn, hlo, hhi⟩
  | case2 _ lo hi _ mid hmid ih =>
    -- the midpoint lies below the target: so does everything up to it
    refine ih (by omega) (by omega) hn ?_ hhi
    intro i hi'
    exact hp i _ (by omega) (by omega) hmid
  | case3 _ lo hi _ mid hmid ih =>
    -- the midpoint does not: nor does anything from it on
    apply ih (by omega) (by omega) (by omega) hlo
    intro i hi' hin
    cases hpi : p i with
    | false => rfl
    | true => exact absurd (hp _ i hi' hin hpi) hmid

theorem lowerBound_spec (hp : Initial p n) :
    lowerBound p n ≤ n ∧ (∀ i < lowerBound p n, p i = true) ∧
      ∀ i, lowerBound p n ≤ i → i < n → p i = false := by
  apply lowerLoop_spec hp n 0 n
  · omega
  · omega
  · exact le_refl n
  · intro i hi
    omega
  · intro i hi hin
    omega

theorem lowerBound_le (hp : Initial p n) : lowerBound p n ≤ n :=
  (lowerBound_spec hp).1

theorem lt_lowerBound_iff (hp : Initial p n) {i : ℕ} (hi : i < n) :
    i < lowerBound p n ↔ p i = true := by
  obtain ⟨_, hlo, hhi⟩ := lowerBound_spec hp
  constructor
  · exact hlo i
  · intro h
    by_contra hge
    rw [hhi i (by omega) hi] at h
    cases h

end Netatalk
