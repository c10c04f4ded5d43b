import Netatalk.Bisect
import Netatalk.GreedyJoin
import Netatalk.Utf8

/-! # Composed and decomposed names

The model of `precompose_w` and `decompose_w` with their lookups
(`libatalk/unicode/util_unistr.c`).

* **Tables.**  The four tables of `precompose.h` are a parameter.  A `Row` says that `base` and
  `comb` make `replacement`; in the tables for surrogate pairs each of them is two units.
* **Lookups.**  A lookup is a binary search, and none for the result 0.
* **Rounds.**  `precomposeLoop` holds what may still be joined to, a unit or a pair, and the units
  not read.  `decomposeLetter` is one round of `decompose_w`.
* **Room.**  The calls store a unit while there is room for it and a NUL, so that they fail if the
  result does not leave a unit free.

On words of characters the first is the greedy joining of letters (`precomposeLoop_units`), the
second takes each letter apart (`decomposeLoop_units`), and the parts of a letter join to it
(`Tables.Good.joinAll_decomposeLetter`). -/

namespace Netatalk.Unicode

open List Option GreedyJoin

structure Row where
  replacement : ℕ
  base : ℕ
  comb : ℕ
deriving DecidableEq, Repr

structure Tables where
  precompositions : List Row
  decompositions : List Row
  precompositionsSp : List Row
  decompositionsSp : List Row

/-- The binary search of a table for the row with a key. -/
def search (rows : List Row) (key : Row → ℕ) (sought : ℕ) : Option Row :=
  (bisect (fun mid => compare sought (key (rows.getD mid ⟨0, 0, 0⟩))) rows.length).map
    fun mid => rows.getD mid ⟨0, 0, 0⟩

def Row.key (r : Row) : ℕ := r.base * 2 ^ 16 + r.comb
def Row.keySp (r : Row) : ℕ := r.base * 2 ^ 32 + r.comb

section
variable (T : Tables)

def doPrecomposition (base comb : ℕ) : Option ℕ :=
  (search T.precompositions Row.key (base * 2 ^ 16 + comb)).map Row.replacement

def doPrecompositionSp (baseSp combSp : ℕ) : Option ℕ :=
  (search T.precompositionsSp Row.keySp (baseSp * 2 ^ 32 + combSp)).map Row.replacement

def doDecomposition (base : ℕ) : Option (ℕ × ℕ) :=
  (search T.decompositions Row.replacement base).map fun r => (r.base, r.comb)

def doDecompositionSp (baseSp : ℕ) : Option (ℕ × ℕ) :=
  (search T.decompositionsSp Row.replacement baseSp).map fun r => (r.base, r.comb)

/-! ### Hangul -/

def sbase : ℕ := 0xAC00
def lbase : ℕ := 0x1100
def vbase : ℕ := 0x1161
def tbase : ℕ := 0x11A7
def lcount : ℕ := 19
def vcount : ℕ := 21
def tcount : ℕ := 28
def ncount : ℕ := 588
def scount : ℕ := 11172

/-! ### Composition -/

/-- What a unit makes with the next one, if `base` does not begin a pair. -/
def precomposeUnit (base comb : ℕ) : Option ℕ :=
  if comb < 0x300 then none
  -- the vowels and the number after the last
  else if vbase ≤ comb ∧ comb ≤ vbase + vcount then
    if lbase ≤ base ∧ base < lbase + lcount then
      some (sbase + ((base - lbase) * vcount + (comb - vbase)) * tcount)
    else none
  else if tbase < comb ∧ comb < tbase + tcount then
    if sbase ≤ base ∧ base < sbase + scount ∧ (base - sbase) % tcount = 0 then
      some (base + (comb - tbase))
    else none
  else if High base then none
  else doPrecomposition T base comb

/-- The loop of `precompose_w`, and in the state of a pair the loop inside it. -/
def precomposeLoop : Letter → List ℕ → List ℕ
  | .unit base, [] => [base]
  | .unit base, comb :: rest =>
    -- a pair at the end of the string is not looked up
    if High base ∧ Low comb ∧ 2 ≤ rest.length then
      precomposeLoop (.pair (base * 0x10000 + comb)) rest
    else
      match precomposeUnit T base comb with
      | some result => precomposeLoop (.unit result) rest
      | none => base :: precomposeLoop (.unit comb) rest
  | .pair sp, hi :: lo :: rest =>
    match doPrecompositionSp T sp (hi * 0x10000 + lo) with
    | some result => precomposeLoop (.pair result) rest
    | none => sp / 0x10000 :: sp % 0x10000 :: precomposeLoop (.unit hi) (lo :: rest)
  | .pair sp, [c] => [sp / 0x10000, sp % 0x10000, c]
  | .pair sp, [] => [sp / 0x10000, sp % 0x10000]

/-- `precompose_w`, or none for -1. -/
def precomposeW (name : List ℕ) (room : ℕ) : Option (List ℕ) :=
  match name with
  | [] => none
  | base :: rest =>
    if room < rest.length + 1 then none
    else
      let comp := precomposeLoop T (.unit base) rest
      if comp.length < room then some comp else none

/-! ### Decomposition -/

/-- A base taken apart, at most `n` times and while the new base is to be looked up `again`. -/
def decomposeTimes (lookup : ℕ → Option (ℕ × ℕ)) (again : ℕ → Bool) :
    ℕ → ℕ → List ℕ → ℕ × List ℕ
  | 0, base, comb => (base, comb)
  | n + 1, base, comb =>
    match lookup base with
    | none => (base, comb)
    | some result =>
      if again result.1 then decomposeTimes lookup again n result.1 (result.2 :: comb)
      else (result.1, result.2 :: comb)

/-- `MAXCOMBLEN`. -/
def maxcomblen : ℕ := 3

/-- `MAXCOMBSPLEN`, in pairs. -/
def maxcombsplen : ℕ := 2

def decomposeUnit (base : ℕ) : ℕ × List ℕ :=
  if base ≤ 0x7F then (base, [])
  else if sbase ≤ base ∧ base < sbase + scount then
    let sindex := base - sbase
    let v := vbase + sindex % ncount / tcount
    let tjamo := tbase + sindex % tcount
    (lbase + sindex / ncount, if tjamo = tbase then [v] else [v, tjamo])
  else decomposeTimes (doDecomposition T) (fun b => 0x7F < b) maxcomblen base []

def decomposeSp (sp : ℕ) : ℕ × List ℕ :=
  decomposeTimes (doDecompositionSp T) (fun _ => true) maxcombsplen sp []

/-- What a letter is taken apart into. -/
def decomposeLetter : Letter → Letter × List Letter
  | .unit base => (.unit (decomposeUnit T base).1, (decomposeUnit T base).2.map .unit)
  | .pair sp => (.pair (decomposeSp T sp).1, (decomposeSp T sp).2.map .pair)

/-- The units that one round of `decompose_w` stores. -/
def decomposeRound (l : Letter) : List ℕ :=
  units ((decomposeLetter T l).1 :: (decomposeLetter T l).2)

/-- The loop of `decompose_w`. -/
def decomposeLoop : List ℕ → List ℕ
  | [] => []
  | base :: rest =>
    if High base then
      match rest with
      | [] => [base]
      | lo :: rest => decomposeRound T (.pair (base * 0x10000 + lo)) ++ decomposeLoop rest
    else decomposeRound T (.unit base) ++ decomposeLoop rest

/-- `decompose_w`, or none for -1. -/
def decomposeW (name : List ℕ) (room : ℕ) : Option (List ℕ) :=
  if name = [] then none
  else
    let comp := decomposeLoop T name
    if comp.length < room then some comp else none

/-- The joining of two letters that `precompose_w` does. -/
def joinLetters : Letter → Letter → Option Letter
  | .unit base, .unit comb => (precomposeUnit T base comb).map .unit
  | .pair base, .pair comb => (doPrecompositionSp T base comb).map .pair
  | _, _ => none

end

/-! ### Tables that belong together -/

/-- The numbers that composing Hangul can give. -/
def Syllable (c : ℕ) : Prop := sbase ≤ c ∧ c ≤ sbase + scount

instance (c : ℕ) : Decidable (Syllable c) := inferInstanceAs (Decidable (_ ∧ _))

/-- A character that stays as it is on the way between the client and the disk. -/
def Letter.Clean (l : Letter) : Prop := l.Loose ∧ ¬ l.Bidi ∧ l ≠ .unit 0x2F

/-- A row for single units, apart from the ranges of Hangul. -/
structure Row.Fits (r : Row) : Prop where
  replacement : (Letter.unit r.replacement).Clean
  ascii : 0x80 ≤ r.replacement
  base : (Letter.unit r.base).Clean
  comb : (Letter.unit r.comb).Clean
  combining : 0x300 ≤ r.comb
  vowel : ¬ (vbase ≤ r.comb ∧ r.comb ≤ vbase + vcount)
  trailing : ¬ (tbase < r.comb ∧ r.comb < tbase + tcount)
  leading : ¬ (lbase ≤ r.replacement ∧ r.replacement < lbase + lcount)
  syllable : ¬ Syllable r.replacement
  baseSyllable : ¬ Syllable r.base

/-- A row for pairs.  The first unit of `comb` may be anything. -/
structure Row.FitsSp (r : Row) : Prop where
  replacement : (Letter.pair r.replacement).Valid
  base : (Letter.pair r.base).Valid
  comb : Low (r.comb % 0x10000)
  combLt : r.comb < 2 ^ 32

/-- The tables are sorted by what is sought in them, hold the same rows for composing and for
decomposing, and in no chain of rows does a letter come back. -/
structure Tables.Good (T : Tables) : Prop where
  sorted : T.precompositions.Pairwise fun r s => r.key < s.key
  sortedSp : T.precompositionsSp.Pairwise fun r s => r.keySp < s.keySp
  decSorted : T.decompositions.Pairwise fun r s => r.replacement < s.replacement
  decSortedSp : T.decompositionsSp.Pairwise fun r s => r.replacement < s.replacement
  inverse : ∀ r, r ∈ T.decompositions ↔ r ∈ T.precompositions
  inverseSp : ∀ r, r ∈ T.decompositionsSp ↔ r ∈ T.precompositionsSp
  fits : ∀ r ∈ T.precompositions, r.Fits
  fitsSp : ∀ r ∈ T.precompositionsSp, r.FitsSp
  ranked : ∃ rank : ℕ → ℕ, ∀ r ∈ T.precompositions, rank r.base < rank r.replacement
  rankedSp : ∃ rank : ℕ → ℕ, ∀ r ∈ T.precompositionsSp, rank r.base < rank r.replacement

/-! ### Lookups in sorted tables -/

variable {b base c comb hi lo result sindex sought sp x : ℕ} {key : Row → ℕ}
  {lookup : ℕ → Option (ℕ × ℕ)} {ls : List Letter} {r : Row} {rows : List Row}

theorem search_some (h : search rows key sought = some r) : r ∈ rows ∧ key r = sought := by
  obtain ⟨mid, hmid, rfl⟩ := map_eq_some_iff.mp h
  obtain ⟨-, hlt, heq⟩ := bisectLoop_some _ _ _ hmid
  refine ⟨?_, (Nat.compare_eq_eq.mp heq).symm⟩
  rw [getD_eq_getElem _ _ hlt]
  exact getElem_mem hlt

theorem ascending_of_pairwise (hs : rows.Pairwise fun r s => key r < key s) (sought : ℕ) :
    Ascending (fun mid => compare sought (key (rows.getD mid ⟨0, 0, 0⟩))) rows.length := by
  have hle : ∀ i j, i ≤ j → j < rows.length →
      key (rows.getD i ⟨0, 0, 0⟩) ≤ key (rows.getD j ⟨0, 0, 0⟩) := by
    intro i j hij hj
    rw [getD_eq_getElem _ _ hj, getD_eq_getElem _ _ (hij.trans_lt hj)]
    rcases hij.eq_or_lt with rfl | hlt
    · exact le_rfl
    · exact (pairwise_iff_getElem.mp hs i j (hlt.trans hj) hj hlt).le
  constructor
  · intro i j hij hj hgt
    exact Nat.compare_eq_gt.mpr ((hle i j hij hj).trans_lt (Nat.compare_eq_gt.mp hgt))
  · intro i j hij hj hlt
    exact Nat.compare_eq_lt.mpr ((Nat.compare_eq_lt.mp hlt).trans_le (hle i j hij hj))

theorem search_eq_some_iff (hs : rows.Pairwise fun r s => key r < key s) :
    search rows key sought = some r ↔ r ∈ rows ∧ key r = sought := by
  refine ⟨search_some, ?_⟩
  rintro ⟨hr, rfl⟩
  obtain ⟨i, hi, rfl⟩ := getElem_of_mem hr
  have hfound := (bisect_isSome_iff (ascending_of_pairwise hs (key rows[i]))).mpr
    ⟨i, hi, Nat.compare_eq_eq.mpr (by rw [getD_eq_getElem _ _ hi])⟩
  obtain ⟨mid, hmid⟩ := isSome_iff_exists.mp hfound
  have hsearch : search rows key (key rows[i]) = some (rows.getD mid ⟨0, 0, 0⟩) := by
    rw [search, hmid, map_some]
  obtain ⟨-, hlt, heq⟩ := bisectLoop_some _ _ _ hmid
  have heq := (Nat.compare_eq_eq.mp heq).symm
  rw [getD_eq_getElem _ _ hlt] at heq hsearch
  -- a key stands in one row only
  have hindex : mid = i := by
    rcases Nat.lt_trichotomy mid i with h | h | h
    · exact absurd heq (pairwise_iff_getElem.mp hs mid i hlt hi h).ne
    · exact h
    · exact absurd heq (pairwise_iff_getElem.mp hs i mid hi hlt h).ne'
  subst hindex
  exact hsearch

section good
variable {T : Tables}

theorem Tables.Good.mem_of_doPrecomposition (hT : T.Good)
    (hcomb : comb < 0x10000) (h : doPrecomposition T base comb = some result) :
    (⟨result, base, comb⟩ : Row) ∈ T.precompositions := by
  obtain ⟨r, hr, rfl⟩ := map_eq_some_iff.mp h
  obtain ⟨hmem, hkey⟩ := search_some hr
  have hlt : r.comb < 0x10000 := by
    have := (hT.fits r hmem).comb.1
    rw [Letter.Loose, Letter.Valid] at this
    omega
  rw [Row.key] at hkey
  obtain ⟨rfl, rfl⟩ : r.base = base ∧ r.comb = comb := by omega
  exact hmem

theorem Tables.Good.mem_of_doPrecompositionSp (hT : T.Good)
    (hcomb : comb < 2 ^ 32) (h : doPrecompositionSp T base comb = some result) :
    (⟨result, base, comb⟩ : Row) ∈ T.precompositionsSp := by
  obtain ⟨r, hr, rfl⟩ := map_eq_some_iff.mp h
  obtain ⟨hmem, hkey⟩ := search_some hr
  have hlt := (hT.fitsSp r hmem).combLt
  rw [Row.keySp] at hkey
  obtain ⟨rfl, rfl⟩ : r.base = base ∧ r.comb = comb := by omega
  exact hmem

theorem Tables.Good.doDecomposition_some (hT : T.Good) (h : doDecomposition T x = some (b, c)) :
    (⟨x, b, c⟩ : Row) ∈ T.precompositions ∧ doPrecomposition T b c = some x := by
  obtain ⟨r, hr, heq⟩ := map_eq_some_iff.mp h
  cases heq
  obtain ⟨hmem, rfl⟩ := search_some hr
  have hmem := (hT.inverse r).mp hmem
  refine ⟨hmem, ?_⟩
  rw [doPrecomposition, ← Row.key, (search_eq_some_iff hT.sorted).mpr ⟨hmem, rfl⟩, map_some]

theorem Tables.Good.doDecompositionSp_some (hT : T.Good) (h : doDecompositionSp T x = some (b, c)) :
    (⟨x, b, c⟩ : Row) ∈ T.precompositionsSp ∧ doPrecompositionSp T b c = some x := by
  obtain ⟨r, hr, heq⟩ := map_eq_some_iff.mp h
  cases heq
  obtain ⟨hmem, rfl⟩ := search_some hr
  have hmem := (hT.inverseSp r).mp hmem
  refine ⟨hmem, ?_⟩
  rw [doPrecompositionSp, ← Row.keySp, (search_eq_some_iff hT.sortedSp).mpr ⟨hmem, rfl⟩,
    map_some]

/-! ### What joins -/

/-- The three ways in which two units make one. -/
theorem precomposeUnit_cases (h : precomposeUnit T base comb = some result) :
    (lbase ≤ base ∧ base < lbase + lcount) ∧ Syllable result ∧ (result - sbase) % tcount = 0 ∨
    (Syllable base ∧ (base - sbase) % tcount = 0) ∧ Syllable result ∧
      (result - sbase) % tcount ≠ 0 ∨
    ¬ High base ∧ doPrecomposition T base comb = some result := by
  rw [precomposeUnit] at h
  split_ifs at h with h₁ hv hl ht hs hh
  · have hresult := some.inj h
    left
    simp only [Syllable, scount, lbase, lcount, vbase, vcount, tcount] at hv hl hresult ⊢
    omega
  · have hresult := some.inj h
    right
    left
    simp only [Syllable, scount, tbase, tcount] at ht hs hresult ⊢
    omega
  · exact .inr (.inr ⟨hh, h⟩)

theorem Row.Fits.precomposeUnit (hr : r.Fits)
    (h : doPrecomposition T r.base r.comb = some r.replacement) :
    precomposeUnit T r.base r.comb = some r.replacement := by
  have hhigh : ¬ High r.base := fun hb => by
    have := hr.base.1
    obtain ⟨h₁, h₂⟩ := hb
    rw [Letter.Loose, Letter.Valid] at this
    omega
  rw [Unicode.precomposeUnit, if_neg hr.combining.not_gt, if_neg hr.vowel,
    if_neg hr.trailing, if_neg hhigh, h]

theorem clean_of_syllable (h : Syllable c) : (Letter.unit c).Clean := by
  simp only [Syllable, sbase, scount] at h
  refine ⟨?_, ?_, ?_⟩
  · rw [Letter.Loose, Letter.Valid]
    omega
  · rw [Letter.Bidi]
    omega
  · rintro ⟨⟩
    omega

theorem Tables.Good.clean_of_join (hT : T.Good) {x y z : Letter} (hy : y.Valid)
    (h : joinLetters T x y = some z) : z.Valid ∧ z.Clean := by
  cases x with
  | unit b =>
    cases y with
    | unit c =>
      obtain ⟨result, hj, rfl⟩ := map_eq_some_iff.mp h
      have hclean : (Letter.unit result).Clean := by
        rcases precomposeUnit_cases hj with ⟨-, hs, -⟩ | ⟨-, hs, -⟩ | ⟨-, hrow⟩
        · exact clean_of_syllable hs
        · exact clean_of_syllable hs
        · have hc : c < 0x10000 := by
            rw [Letter.Valid] at hy
            omega
          exact (hT.fits _ (hT.mem_of_doPrecomposition hc hrow)).replacement
      exact ⟨hclean.1, hclean⟩
    | pair => cases h
  | pair b =>
    cases y with
    | unit => cases h
    | pair c =>
      obtain ⟨result, hj, rfl⟩ := map_eq_some_iff.mp h
      obtain ⟨⟨-, hhi⟩, -⟩ := hy
      have hrow := hT.mem_of_doPrecompositionSp (by omega) hj
      have hv := (hT.fitsSp _ hrow).replacement
      exact ⟨hv, hv.loose, id, by rintro ⟨⟩⟩

/-! ### A unit of a pair joins with nothing -/

theorem Tables.Good.precomposeUnit_low (hT : T.Good) (hbase : Low base)
    (hcomb : comb < 0x10000) : precomposeUnit T base comb = none := by
  obtain ⟨h₁, h₂⟩ := hbase
  rw [eq_none_iff_forall_ne_some]
  intro result h
  rcases precomposeUnit_cases h with ⟨hl, -⟩ | ⟨⟨hs, -⟩, -⟩ | ⟨-, hrow⟩
  · simp only [lbase, lcount] at hl
    omega
  · simp only [Syllable, sbase, scount] at hs
    omega
  · have := (hT.fits _ (hT.mem_of_doPrecomposition hcomb hrow)).base.1
    simp only [Letter.Loose, Letter.Valid] at this
    omega

theorem precomposeUnit_high (hbase : High base) (comb : ℕ) : precomposeUnit T base comb = none := by
  obtain ⟨h₁, h₂⟩ := hbase
  rw [eq_none_iff_forall_ne_some]
  intro result h
  rcases precomposeUnit_cases h with ⟨hl, -⟩ | ⟨⟨hs, -⟩, -⟩ | ⟨hh, -⟩
  · simp only [lbase, lcount] at hl
    omega
  · simp only [Syllable, sbase, scount] at hs
    omega
  · exact hh ⟨h₁, h₂⟩

theorem Tables.Good.precomposeUnit_comb_high (hT : T.Good) (hcomb : High comb) :
    precomposeUnit T base comb = none := by
  obtain ⟨h₁, h₂⟩ := hcomb
  have hrow : doPrecomposition T base comb = none := by
    rw [eq_none_iff_forall_ne_some]
    intro result h
    have := (hT.fits _ (hT.mem_of_doPrecomposition (by omega) h)).comb.1
    simp only [Letter.Loose, Letter.Valid] at this
    omega
  rw [precomposeUnit, hrow, if_neg (by omega), if_neg, if_neg, ite_self]
  · simp only [tbase, tcount]
    omega
  · simp only [vbase, vcount]
    omega

theorem Tables.Good.doPrecompositionSp_not_low (hT : T.Good) (hhi : hi < 0x10000)
    (hlo : lo < 0x10000) (hlow : ¬ Low lo) :
    doPrecompositionSp T sp (hi * 0x10000 + lo) = none := by
  rw [eq_none_iff_forall_ne_some]
  intro result h
  have := (hT.fitsSp _ (hT.mem_of_doPrecompositionSp (by omega) h)).comb
  rw [(pair_parts hlo).2] at this
  exact hlow this

/-! ### The loops on words -/

theorem Letter.Valid.unit_lt (h : (Letter.unit c).Valid) : c < 0x10000 := by
  rw [Letter.Valid] at h
  omega

theorem Letter.Valid.not_high (h : (Letter.unit c).Valid) : ¬ High c := by
  rintro ⟨h₁, h₂⟩
  rw [Letter.Valid] at h
  omega

theorem pair_eq : sp / 0x10000 * 0x10000 + sp % 0x10000 = sp := by omega

/-- A pair is looked up from its first unit on, also where the string ends too early for that. -/
theorem Tables.Good.precomposeLoop_enter (hT : T.Good) (h : (Letter.pair sp).Valid) {us : List ℕ}
    (hus : ∀ c ∈ us, c < 0x10000) : precomposeLoop T (.unit (sp / 0x10000)) (sp % 0x10000 :: us) =
      precomposeLoop T (.pair sp) us := by
  have hlow : ¬ High (sp % 0x10000) := fun hh => by
    obtain ⟨-, h₁, -⟩ := h
    obtain ⟨-, h₂⟩ := hh
    omega
  rw [precomposeLoop]
  by_cases hlen : 2 ≤ us.length
  · rw [if_pos ⟨h.1, h.2, hlen⟩, pair_eq]
  rw [if_neg fun hp => hlen hp.2.2, precomposeUnit_high h.1]
  rcases us with _ | ⟨c, _ | ⟨d, us⟩⟩
  · rfl
  · have hnone := hT.precomposeUnit_low h.2 (hus c mem_cons_self)
    rw [precomposeLoop, if_neg fun hp => hlow hp.1, hnone]
    rfl
  · exact absurd (Nat.le_add_left 2 us.length) hlen

theorem units_lt (hls : ∀ l ∈ ls, l.Valid) : ∀ c ∈ units ls, c < 0x10000 := by
  intro c hc
  obtain ⟨l, hl, hc⟩ := mem_flatMap.mp hc
  have hv := hls l hl
  cases l with
  | unit =>
    rw [mem_singleton.mp hc]
    exact hv.unit_lt
  | pair sp =>
    obtain ⟨⟨-, h₁⟩, -, h₂⟩ := hv
    rcases mem_pair.mp hc with rfl | rfl <;> omega

theorem precomposeLoop_pair_of_none (h : doPrecompositionSp T sp (hi * 0x10000 + lo) = none)
    (us : List ℕ) : precomposeLoop T (.pair sp) (hi :: lo :: us) =
      sp / 0x10000 :: sp % 0x10000 :: precomposeLoop T (.unit hi) (lo :: us) := by
  conv_lhs => rw [precomposeLoop, h]

/-- A pair before a character of one unit is stored. -/
theorem Tables.Good.precomposeLoop_pair_unit (hT : T.Good) (hc : (Letter.unit c).Valid)
    (hls : ∀ l ∈ ls, l.Valid) : precomposeLoop T (.pair sp) (c :: units ls) =
      sp / 0x10000 :: sp % 0x10000 :: precomposeLoop T (.unit c) (units ls) := by
  cases ls with
  | nil => rfl
  | cons l ls =>
    have hl := hls l mem_cons_self
    cases l with
    | unit d =>
      have hlow : ¬ Low d := fun hd => by
        obtain ⟨h₁, h₂⟩ := hd
        rw [Letter.Valid] at hl
        omega
      exact precomposeLoop_pair_of_none
        (hT.doPrecompositionSp_not_low hc.unit_lt hl.unit_lt hlow) _
    | pair d =>
      obtain ⟨⟨h₁, h₂⟩, -⟩ := hl
      have hlow : ¬ Low (d / 0x10000) := fun hd => by
        obtain ⟨h₃, -⟩ := hd
        omega
      exact precomposeLoop_pair_of_none
        (hT.doPrecompositionSp_not_low hc.unit_lt (by omega) hlow) _

/-- `precompose_w` joins the letters of a word from the left. -/
theorem Tables.Good.precomposeLoop_units (hT : T.Good) {x : Letter}
    (hx : x.Valid) (hls : ∀ l ∈ ls, l.Valid) :
    precomposeLoop T x (units ls) = units (compose (joinLetters T) x ls) := by
  induction ls generalizing x with
  | nil => cases x <;> rfl
  | cons y ys ih =>
    obtain ⟨hy, hys⟩ := forall_mem_cons.mp hls
    cases x with
    | unit b =>
      cases y with
      | unit c =>
        rw [units_cons, Letter.units, singleton_append, precomposeLoop,
          if_neg fun hp => hx.not_high hp.1]
        cases hj : precomposeUnit T b c with
        | some z =>
          have hz : joinLetters T (.unit b) (.unit c) = some (.unit z) := by
            rw [joinLetters, hj, map_some]
          rw [compose_of_some hz]
          exact ih (hT.clean_of_join hy hz).1 hys
        | none =>
          have hz : joinLetters T (.unit b) (.unit c) = none := by
            rw [joinLetters, hj, map_none]
          rw [compose_of_none hz]
          exact congrArg (b :: ·) (ih hy hys)
      | pair =>
        rw [units_cons, Letter.units, cons_append, singleton_append,
          precomposeLoop, if_neg fun hp => hx.not_high hp.1,
          hT.precomposeUnit_comb_high hy.1]
        rw [hT.precomposeLoop_enter hy (units_lt hys), ih hy hys]
        rfl
    | pair b =>
      cases y with
      | unit =>
        rw [units_cons, Letter.units, singleton_append,
          hT.precomposeLoop_pair_unit hy hys, ih hy hys]
        rfl
      | pair c =>
        rw [units_cons, Letter.units, cons_append, singleton_append,
          precomposeLoop, pair_eq]
        cases hj : doPrecompositionSp T b c with
        | some z =>
          have hz : joinLetters T (.pair b) (.pair c) = some (.pair z) := by
            rw [joinLetters, hj, map_some]
          rw [compose_of_some hz]
          exact ih (hT.clean_of_join hy hz).1 hys
        | none =>
          have hz : joinLetters T (.pair b) (.pair c) = none := by
            rw [joinLetters, hj, map_none]
          rw [compose_of_none hz, hT.precomposeLoop_enter hy (units_lt hys),
            ih hy hys]
          rfl

theorem decomposeLoop_units (hls : ∀ l ∈ ls, l.Valid) :
    decomposeLoop T (units ls) = units (spread (decomposeLetter T) ls) := by
  induction ls with
  | nil => rfl
  | cons l ls ih =>
    obtain ⟨hl, hls⟩ := forall_mem_cons.mp hls
    have hround : units (spread (decomposeLetter T) (l :: ls)) =
        decomposeRound T l ++ decomposeLoop T (units ls) := by
      rw [ih hls, spread_cons, ← cons_append, units, flatMap_append]
      rfl
    rw [hround]
    cases l with
    | unit =>
      rw [decomposeLoop.eq_def]
      exact if_neg hl.not_high
    | pair =>
      rw [units_cons, Letter.units, cons_append, singleton_append,
        decomposeLoop.eq_def]
      dsimp only
      rw [if_pos hl.1, pair_eq]

/-! ### The parts of a letter -/

theorem joinAll_decomposeTimes {letter : ℕ → Letter}
    (again : ℕ → Bool)
    (hlookup : ∀ x b c, lookup x = some (b, c) →
      joinLetters T (letter b) (letter c) = some (letter x)) (n base : ℕ) (comb : List ℕ) :
    joinAll (joinLetters T) (letter (decomposeTimes lookup again n base comb).1)
        ((decomposeTimes lookup again n base comb).2.map letter) =
      joinAll (joinLetters T) (letter base) (comb.map letter) := by
  induction n generalizing base comb with
  | zero => rfl
  | succ n ih =>
    rw [decomposeTimes]
    cases hl : lookup base with
    | none => rfl
    | some result =>
      have hj := hlookup base result.1 result.2 hl
      have hstep : joinAll (joinLetters T) (letter result.1) ((result.2 :: comb).map letter) =
          joinAll (joinLetters T) (letter base) (comb.map letter) := by
        rw [map_cons, joinAll, hj, bind_some]
      dsimp only
      split_ifs with ha
      · rw [ih, hstep]
      · exact hstep

theorem precomposeUnit_vowel (h : sindex < scount) :
    precomposeUnit T (lbase + sindex / ncount) (vbase + sindex % ncount / tcount) =
      some (sbase + sindex / tcount * tcount) := by
  simp only [scount, ncount, tcount, lbase, vbase] at *
  rw [precomposeUnit, if_neg, if_pos, if_pos]
  · simp only [sbase, lbase, vbase, vcount, tcount]
    refine congrArg some ?_
    omega
  · simp only [lbase, lcount]
    omega
  · simp only [vbase, vcount]
    omega
  · omega

theorem precomposeUnit_trailing (h : sindex < scount) (ht : sindex % tcount ≠ 0) :
    precomposeUnit T (sbase + sindex / tcount * tcount) (tbase + sindex % tcount) =
      some (sbase + sindex) := by
  simp only [scount, tcount, tbase] at *
  rw [precomposeUnit, if_neg, if_neg, if_pos, if_pos]
  · simp only [tbase]
    refine congrArg some ?_
    omega
  · simp only [sbase, scount, tcount]
    omega
  · simp only [tbase, tcount]
    omega
  · simp only [vbase, vcount]
    omega
  · omega

/-- The jamos of a syllable join to it. -/
theorem joinAll_syllable (hs : sbase ≤ base ∧ base < sbase + scount) :
    joinAll (joinLetters T) (.unit (decomposeUnit T base).1)
      ((decomposeUnit T base).2.map .unit) = some (.unit base) := by
  obtain ⟨sindex, rfl⟩ := Nat.exists_eq_add_of_le hs.1
  have hlt : sindex < scount := Nat.lt_of_add_lt_add_left hs.2
  have hascii : ¬ sbase + sindex ≤ 0x7F := by
    simp only [sbase]
    omega
  rw [decomposeUnit, if_neg hascii, if_pos hs, Nat.add_sub_cancel_left]
  dsimp only
  by_cases ht : sindex % tcount = 0
  · have hall : sindex / tcount * tcount = sindex := Nat.div_mul_cancel (Nat.dvd_of_mod_eq_zero ht)
    rw [if_pos (by rw [ht, add_zero]), map_cons, map_nil, joinAll, joinLetters,
      precomposeUnit_vowel hlt, map_some, bind_some, joinAll, hall]
  · rw [if_neg (by omega), map_cons, map_cons, map_nil, joinAll, joinLetters,
      precomposeUnit_vowel hlt, map_some, bind_some, joinAll, joinLetters,
      precomposeUnit_trailing hlt ht, map_some, bind_some, joinAll]

theorem Tables.Good.joinAll_decomposeLetter (hT : T.Good) (x : Letter) :
    joinAll (joinLetters T) (decomposeLetter T x).1 (decomposeLetter T x).2 = some x := by
  cases x with
  | unit base =>
    rw [decomposeLetter]
    by_cases hs : sbase ≤ base ∧ base < sbase + scount
    · exact joinAll_syllable hs
    rw [decomposeUnit]
    split_ifs with ha
    · rfl
    · refine joinAll_decomposeTimes _ (fun x b c h => ?_) _ _ _
      obtain ⟨hrow, hpre⟩ := hT.doDecomposition_some h
      rw [joinLetters, (hT.fits _ hrow).precomposeUnit hpre, map_some]
  | pair =>
    refine joinAll_decomposeTimes _ (fun x b c h => ?_) _ _ _
    rw [joinLetters, (hT.doDecompositionSp_some h).2, map_some]

theorem forall_decomposeTimes {P : ℕ → Prop} (again : ℕ → Bool)
    (hlookup : ∀ x b c, lookup x = some (b, c) → P b ∧ P c) {comb : List ℕ} (hbase : P base)
    (hcomb : ∀ c ∈ comb, P c) (n : ℕ) : ∀ c ∈ (decomposeTimes lookup again n base comb).1 ::
      (decomposeTimes lookup again n base comb).2, P c := by
  induction n generalizing base comb with
  | zero => exact forall_mem_cons.mpr ⟨hbase, hcomb⟩
  | succ n ih =>
    rw [decomposeTimes]
    cases hl : lookup base with
    | none => exact forall_mem_cons.mpr ⟨hbase, hcomb⟩
    | some result =>
      obtain ⟨hb, hc⟩ := hlookup base result.1 result.2 hl
      have hcomb := forall_mem_cons.mpr ⟨hc, hcomb⟩
      dsimp only
      split_ifs with ha
      · exact ih hb hcomb
      · exact forall_mem_cons.mpr ⟨hb, hcomb⟩

theorem clean_of_jamo (h : lbase ≤ c) (h' : c < tbase + tcount) : (Letter.unit c).Clean := by
  simp only [lbase, tbase, tcount] at h h'
  refine ⟨?_, ?_, ?_⟩
  · rw [Letter.Loose, Letter.Valid]
    omega
  · rw [Letter.Bidi]
    omega
  · rintro ⟨⟩
    omega

theorem Tables.Good.clean_decomposeLetter (hT : T.Good) {x : Letter} (hx : x.Clean) :
    ∀ l ∈ (decomposeLetter T x).1 :: (decomposeLetter T x).2, l.Clean := by
  cases x with
  | unit base =>
    have hall : ∀ c ∈ (decomposeUnit T base).1 :: (decomposeUnit T base).2,
        (Letter.unit c).Clean := by
      rw [decomposeUnit]
      split_ifs with ha hs
      · simpa using hx
      · -- the jamos
        simp only [sbase, scount] at hs
        intro c hc
        apply clean_of_jamo
        all_goals
          dsimp only at hc
          split_ifs at hc <;>
            simp only [mem_cons, not_mem_nil, or_false, lbase, vbase, tbase,
              ncount, tcount] at hc ⊢ <;>
            omega
      · refine forall_decomposeTimes _ (fun x b c h => ?_) hx (by simp) _
        have hrow := hT.fits _ (hT.doDecomposition_some h).1
        exact ⟨hrow.base, hrow.comb⟩
    exact List.forall_mem_map.mpr hall
  | pair sp =>
    have hall : ∀ c ∈ (decomposeSp T sp).1 :: (decomposeSp T sp).2, (Letter.pair c).Clean := by
      refine forall_decomposeTimes _ (fun x b c h => ?_) hx (by simp) _
      have hrow := hT.fitsSp _ (hT.doDecompositionSp_some h).1
      exact ⟨⟨hrow.base.loose, id, by rintro ⟨⟩⟩, ⟨hrow.comb, id, by rintro ⟨⟩⟩⟩
    exact List.forall_mem_map.mpr hall

/-! ### Joining goes one way -/

/-- Letters by how much they are made of, from such orders for the two tables. -/
def letterRank (rank rankSp : ℕ → ℕ) : Letter → ℕ
  | .unit c =>
    if lbase ≤ c ∧ c < lbase + lcount then 0
    else if Syllable c then (if (c - sbase) % tcount = 0 then 1 else 2)
    else rank c
  | .pair sp => rankSp sp

theorem Tables.Good.exists_rank (hT : T.Good) :
    ∃ rank : Letter → ℕ, ∀ x y z, y.Valid → joinLetters T x y = some z → rank x < rank z := by
  obtain ⟨rank, hrank⟩ := hT.ranked
  obtain ⟨rankSp, hrankSp⟩ := hT.rankedSp
  refine ⟨letterRank rank rankSp, ?_⟩
  intro x y z hy h
  have hleading : ∀ {c}, Syllable c → ¬ (lbase ≤ c ∧ c < lbase + lcount) := by
    intro c hc hl
    simp only [Syllable, sbase, lbase, lcount] at hc hl
    omega
  cases x with
  | unit b =>
    cases y with
    | unit =>
      obtain ⟨result, hj, rfl⟩ := map_eq_some_iff.mp h
      rcases precomposeUnit_cases hj with ⟨hl, hs, ht⟩ | ⟨⟨hb, hb'⟩, hs, ht⟩ | ⟨-, hrow⟩
      · rw [letterRank, letterRank, if_pos hl, if_neg (hleading hs), if_pos hs, if_pos ht]
        exact Nat.zero_lt_one
      · rw [letterRank, letterRank, if_neg (hleading hb), if_pos hb, if_pos hb',
          if_neg (hleading hs), if_pos hs, if_neg ht]
        exact Nat.one_lt_two
      · have hmem := hT.mem_of_doPrecomposition hy.unit_lt hrow
        have hfits := hT.fits _ hmem
        have hlt : rank b < rank result := hrank _ hmem
        rw [letterRank, letterRank, if_neg hfits.leading, if_neg hfits.syllable]
        split_ifs with hl hs ht
        · exact Nat.zero_lt_of_lt hlt
        · exact absurd hs hfits.baseSyllable
        · exact absurd hs hfits.baseSyllable
        · exact hlt
    | pair => cases h
  | pair b =>
    cases y with
    | unit => cases h
    | pair c =>
      obtain ⟨result, hj, rfl⟩ := map_eq_some_iff.mp h
      obtain ⟨⟨-, hhi⟩, -⟩ := hy
      exact hrankSp _ (hT.mem_of_doPrecompositionSp (by omega) hj)

end good

end Netatalk.Unicode
