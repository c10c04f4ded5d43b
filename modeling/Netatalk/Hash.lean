import Mathlib.Data.List.Nodup
import Mathlib.Data.Nat.Bitwise

/-! # Chained hash tables that double and halve

The tables of `hash.c`: an array of chains whose length is a power of two.  A node with hash
value `h` sits in chain `h & mask`.  An insertion doubles the array when the node count has
reached `highmark` (`growTable` splits every chain by the newly exposed bit), a deletion
halves it when the count is at or below `lowmark` (`shrinkTable` appends every chain of the
upper half to its sister), and the deletion used inside a scan never does.

`Valid` is the part of `hash_verify` that the scans rely on.  `Holds t n` says that `n` is
stored; every operation is described by what it does to `Holds` and to `chainOf`, the
position of a node.  Doubling never moves a node to a smaller position
(`chainOf_le_chainOf_growTable`), while halving reduces every position modulo the new size. -/

namespace Netatalk.Hash

open List

variable {α : Type}

/-- A table: `table i` is chain `i`, head first, and the first `nchains` chains are in use. -/
structure Table (α : Type) where
  table : ℕ → List α
  nchains : ℕ
  mask : ℕ
  nodecount : ℕ
  maxcount : ℕ
  highmark : ℕ
  lowmark : ℕ

def initSize : ℕ := 1024

def hashCreate (maxcount : ℕ) : Table α where
  table := fun _ => []
  nchains := initSize
  mask := initSize - 1
  nodecount := 0
  maxcount := maxcount
  highmark := initSize * 2
  lowmark := initSize / 2

/-- All nodes in the order in which `hash_scan_next` returns them. -/
def Table.nodes (t : Table α) : List α := (List.range t.nchains).flatMap t.table

section Operations

variable (hkey : α → ℕ)

/-- The chain that the hash value of a node picks. -/
def chainOf (t : Table α) (n : α) : ℕ := hkey n &&& t.mask

/-- Doubling; both halves of a chain are built by pushing its nodes one after the other. -/
def growTable (t : Table α) : Table α :=
  let mask := t.mask <<< 1 ||| 1
  let exposedBit := mask ^^^ t.mask
  { t with
    table := fun chain =>
      if chain < t.nchains then
        ((t.table chain).filter fun n => hkey n &&& exposedBit = 0).reverse
      else if chain < t.nchains * 2 then
        ((t.table (chain - t.nchains)).filter fun n => hkey n &&& exposedBit ≠ 0).reverse
      else t.table chain
    mask := mask
    nchains := t.nchains * 2
    lowmark := t.lowmark * 2
    highmark := t.highmark * 2 }

/-- Halving: every chain of the upper half goes to the end of its sister. -/
def shrinkTable (t : Table α) : Table α :=
  let nchains := t.nchains / 2
  { t with
    table := fun chain =>
      if chain < nchains then t.table chain ++ t.table (chain + nchains) else t.table chain
    mask := t.mask >>> 1
    nchains := nchains
    lowmark := t.lowmark / 2
    highmark := t.highmark / 2 }

/-- Replace one chain. -/
def Table.setChain (t : Table α) (chain : ℕ) (l : List α) : Table α :=
  { t with table := fun i => if i = chain then l else t.table i }

/-- The check of `highmark`; `realloc` tells whether the doubling finds memory. -/
def growIfDue (realloc : Bool) (t : Table α) : Table α :=
  if t.highmark ≤ t.nodecount && realloc then growTable hkey t else t

/-- The check of `lowmark`; a table at its initial number of nodes is never halved. -/
def shrinkIfDue (t : Table α) : Table α :=
  if t.nodecount ≤ t.lowmark && initSize < t.nodecount then shrinkTable t else t

/-- Insertion at the head of a chain. -/
def hashInsert (realloc : Bool) (t : Table α) (n : α) : Table α :=
  let t := growIfDue hkey realloc t
  let chain := chainOf hkey t n
  { t.setChain chain (n :: t.table chain) with nodecount := t.nodecount + 1 }

def hashLookup (same : α → α → Bool) (t : Table α) (n : α) : Option α :=
  (t.table (chainOf hkey t n)).find? fun m => hkey m == hkey n && same m n

variable [DecidableEq α]

/-- Unlinking without a change of size. -/
def hashScanDelete (t : Table α) (n : α) : Table α :=
  let chain := chainOf hkey t n
  { t.setChain chain ((t.table chain).erase n) with nodecount := t.nodecount - 1 }

/-- Unlinking that first halves a table with few nodes. -/
def hashDelete (t : Table α) (n : α) : Table α := hashScanDelete hkey (shrinkIfDue t) n

/-- A whole scan that unlinks the nodes that `p` selects. -/
def hashScanRemove (p : α → Bool) (t : Table α) : Table α :=
  (t.nodes.filter p).foldl (hashScanDelete hkey) t

end Operations

/-! ### Valid tables -/

/-- The array has a power of two as its size, the marks go with it, and every chain holds
nodes of its own, each once. -/
structure Valid (hkey : α → ℕ) (t : Table α) : Prop where
  size : ∃ k, t.nchains = 2 ^ k ∧ t.mask = 2 ^ k - 1
  highmark : t.highmark = t.nchains * 2
  lowmark : t.lowmark * 2 = t.nchains
  chain : ∀ i < t.nchains, ∀ n ∈ t.table i, chainOf hkey t n = i
  nodup : ∀ i < t.nchains, (t.table i).Nodup

/-- The node `n` is stored in `t`. -/
def Holds (hkey : α → ℕ) (t : Table α) (n : α) : Prop := n ∈ t.table (chainOf hkey t n)

instance [DecidableEq α] (hkey : α → ℕ) (t : Table α) (n : α) : Decidable (Holds hkey t n) :=
  inferInstanceAs (Decidable (_ ∈ _))

variable {P : α → Prop} {i : ℕ} {m n : α}

section Valid

variable {hkey : α → ℕ} {t : Table α}

theorem hashCreate_valid (maxcount : ℕ) : Valid hkey (hashCreate maxcount : Table α) where
  size := ⟨10, rfl, rfl⟩
  highmark := rfl
  lowmark := rfl
  chain := by
    rintro i _ n ⟨⟩
  nodup := fun _ _ => nodup_nil

theorem not_holds_hashCreate (maxcount : ℕ) (n : α) : ¬Holds hkey (hashCreate maxcount) n :=
  not_mem_nil

theorem Valid.chainOf_eq_mod (h : Valid hkey t) (n : α) :
    chainOf hkey t n = hkey n % t.nchains := by
  obtain ⟨k, hk, hm⟩ := h.size
  rw [chainOf, hk, hm, Nat.and_two_pow_sub_one_eq_mod]

theorem chainOf_congr (h : hkey m = hkey n) : chainOf hkey t m = chainOf hkey t n := by
  rw [chainOf, chainOf, h]

theorem Valid.nchains_pos (h : Valid hkey t) : 0 < t.nchains := by
  obtain ⟨k, hk, _⟩ := h.size
  rw [hk]
  exact Nat.two_pow_pos k

theorem Valid.chainOf_lt (h : Valid hkey t) (n : α) : chainOf hkey t n < t.nchains := by
  rw [h.chainOf_eq_mod]
  exact Nat.mod_lt _ h.nchains_pos

theorem Valid.mem_table_iff (h : Valid hkey t) (hi : i < t.nchains) :
    n ∈ t.table i ↔ Holds hkey t n ∧ chainOf hkey t n = i := by
  constructor
  · intro hn
    have e := h.chain i hi n hn
    exact ⟨by rw [Holds, e]; exact hn, e⟩
  · rintro ⟨hn, rfl⟩
    exact hn

theorem Valid.mem_nodes_iff (h : Valid hkey t) : n ∈ t.nodes ↔ Holds hkey t n := by
  simp only [Table.nodes, mem_flatMap, mem_range]
  constructor
  · rintro ⟨i, hi, hn⟩
    exact ((h.mem_table_iff hi).mp hn).1
  · intro hn
    exact ⟨_, h.chainOf_lt n, hn⟩

end Valid

/-- A table whose chains split the nodes with `P` by hash value modulo the size is valid and
holds just these nodes. -/
theorem valid_holds_of_mem {hkey : α → ℕ} {t : Table α}
    (size : ∃ k, t.nchains = 2 ^ k ∧ t.mask = 2 ^ k - 1) (highmark : t.highmark = t.nchains * 2)
    (lowmark : t.lowmark * 2 = t.nchains)
    (mem : ∀ i < t.nchains, ∀ n, n ∈ t.table i ↔ P n ∧ hkey n % t.nchains = i)
    (nodup : ∀ i < t.nchains, (t.table i).Nodup) : Valid hkey t ∧ ∀ n, Holds hkey t n ↔ P n := by
  have hmod : ∀ n, chainOf hkey t n = hkey n % t.nchains := by
    intro n
    obtain ⟨k, hk, hm⟩ := size
    rw [chainOf, hk, hm, Nat.and_two_pow_sub_one_eq_mod]
  have hpos : 0 < t.nchains := by
    obtain ⟨k, hk, _⟩ := size
    rw [hk]
    exact Nat.two_pow_pos k
  refine ⟨⟨size, highmark, lowmark, ?_, nodup⟩, ?_⟩
  · intro i hi n hn
    rw [hmod]
    exact ((mem i hi n).mp hn).2
  · intro n
    rw [Holds, hmod, mem _ (Nat.mod_lt _ hpos) n]
    exact and_iff_left rfl

/-! ### Doubling -/

section Grow

variable {hkey : α → ℕ} {t : Table α}

theorem mask_growTable (k : ℕ) : (2 ^ k - 1) <<< 1 ||| 1 = 2 ^ (k + 1) - 1 := by
  apply Nat.eq_of_testBit_eq
  intro i
  simp only [Nat.testBit_or, Nat.testBit_shiftLeft, Nat.testBit_two_pow_sub_one]
  cases i with
  | zero => simp
  | succ => simp [Nat.testBit_succ]

theorem exposedBit_eq (k : ℕ) : (2 ^ (k + 1) - 1) ^^^ (2 ^ k - 1) = 2 ^ k := by
  apply Nat.eq_of_testBit_eq
  intro i
  simp only [Nat.testBit_xor, Nat.testBit_two_pow_sub_one, Nat.testBit_two_pow]
  by_cases h : k = i
  · simp [h]
  · simp only [h, decide_false]
    rw [show decide (i < k + 1) = decide (i < k) by rw [decide_eq_decide]; omega, Bool.xor_self]

theorem mod_two_pow_succ (k x : ℕ) : (x &&& 2 ^ k = 0 → x % 2 ^ (k + 1) = x % 2 ^ k) ∧
      (x &&& 2 ^ k ≠ 0 → x % 2 ^ (k + 1) = x % 2 ^ k + 2 ^ k) := by
  rw [Nat.mod_pow_succ, Nat.and_two_pow, Nat.testBit_eq_decide_div_mod_eq]
  obtain h | h : x / 2 ^ k % 2 = 0 ∨ x / 2 ^ k % 2 = 1 := by omega
  · simp [h]
  · simp [h]

theorem Valid.mem_growTable (h : Valid hkey t) (hi : i < t.nchains * 2) (n : α) :
    n ∈ (growTable hkey t).table i ↔ Holds hkey t n ∧ hkey n % (t.nchains * 2) = i := by
  obtain ⟨k, hk, hm⟩ := h.size
  have hbit : (t.mask <<< 1 ||| 1) ^^^ t.mask = 2 ^ k := by
    rw [hm, mask_growTable, exposedBit_eq]
  have hsize : t.nchains * 2 = 2 ^ (k + 1) := by rw [hk, pow_succ]
  obtain ⟨hlow, hhigh⟩ := mod_two_pow_succ k (hkey n)
  simp only [growTable, hbit]
  rw [hsize] at hi ⊢
  split_ifs with h1
  · rw [mem_reverse, mem_filter, h.mem_table_iff h1, h.chainOf_eq_mod, hk,
      decide_eq_true_eq]
    constructor
    · rintro ⟨⟨hn, e⟩, hb⟩
      exact ⟨hn, by rw [hlow hb, e]⟩
    · rintro ⟨hn, e⟩
      by_cases hb : hkey n &&& 2 ^ k = 0
      · exact ⟨⟨hn, by rw [← hlow hb, e]⟩, hb⟩
      · omega
  · have h2 : i - t.nchains < t.nchains := by
      omega
    rw [mem_reverse, mem_filter, h.mem_table_iff h2, h.chainOf_eq_mod, hk,
      decide_eq_true_eq]
    constructor
    · rintro ⟨⟨hn, e⟩, hb⟩
      refine ⟨hn, ?_⟩
      omega
    · rintro ⟨hn, e⟩
      by_cases hb : hkey n &&& 2 ^ k = 0
      · omega
      · exact ⟨⟨hn, by omega⟩, hb⟩

theorem Valid.growTable_holds (h : Valid hkey t) :
    Valid hkey (growTable hkey t) ∧ ∀ n, Holds hkey (growTable hkey t) n ↔ Holds hkey t n := by
  obtain ⟨k, hk, hm⟩ := h.size
  apply valid_holds_of_mem
  · refine ⟨k + 1, ?_, ?_⟩
    · show t.nchains * 2 = 2 ^ (k + 1)
      rw [hk, pow_succ]
    · show t.mask <<< 1 ||| 1 = 2 ^ (k + 1) - 1
      rw [hm, mask_growTable]
  · exact congrArg (· * 2) h.highmark
  · exact congrArg (· * 2) h.lowmark
  · intro i hi n
    exact h.mem_growTable hi n
  · intro i hi
    have hi' : i < t.nchains * 2 := hi
    simp only [growTable]
    split_ifs with h1
    · exact nodup_reverse.mpr ((h.nodup i h1).filter _)
    · exact nodup_reverse.mpr ((h.nodup _ (by omega)).filter _)

theorem Valid.chainOf_le_chainOf_growTable (h : Valid hkey t) (n : α) :
    chainOf hkey t n ≤ chainOf hkey (growTable hkey t) n := by
  rw [h.chainOf_eq_mod, h.growTable_holds.1.chainOf_eq_mod]
  rw [← Nat.mod_mod_of_dvd (hkey n) (Nat.dvd_mul_right t.nchains 2)]
  exact Nat.mod_le _ _

end Grow

/-! ### Halving -/

section Shrink

variable {hkey : α → ℕ} {t : Table α}

theorem Valid.mem_shrinkTable (h : Valid hkey t) (heven : 2 ∣ t.nchains) (hi : i < t.nchains / 2)
    (n : α) : n ∈ (shrinkTable t).table i ↔ Holds hkey t n ∧ hkey n % (t.nchains / 2) = i := by
  have hmod : hkey n % t.nchains % (t.nchains / 2) = hkey n % (t.nchains / 2) :=
    Nat.mod_mod_of_dvd _ (Nat.div_dvd_of_dvd heven)
  have hlt := Nat.mod_lt (hkey n) h.nchains_pos
  simp only [shrinkTable, if_pos hi]
  rw [mem_append, h.mem_table_iff (by omega), h.mem_table_iff (by omega),
    h.chainOf_eq_mod, ← and_or_left, ← hmod]
  refine and_congr_right fun _ => ?_
  generalize hkey n % t.nchains = x at hlt
  constructor
  · rintro (rfl | rfl)
    · exact Nat.mod_eq_of_lt hi
    · rw [Nat.add_mod_right, Nat.mod_eq_of_lt hi]
  · intro e
    by_cases hx : x < t.nchains / 2
    · rw [Nat.mod_eq_of_lt hx] at e
      exact .inl e
    · rw [Nat.mod_eq_sub_mod (by omega), Nat.mod_eq_of_lt (by omega)] at e
      exact .inr (by omega)

theorem Valid.shrinkTable_holds (h : Valid hkey t) (hbig : initSize < t.lowmark) :
    Valid hkey (shrinkTable t) ∧ ∀ n, Holds hkey (shrinkTable t) n ↔ Holds hkey t n := by
  obtain ⟨k, hk, hm⟩ := h.size
  have hlow := h.lowmark
  rw [initSize] at hbig
  -- the size is at least 4, so both marks stay exact
  obtain ⟨j, rfl⟩ : ∃ j, k = j + 2 := by
    refine ⟨k - 2, ?_⟩
    have h2 : 2 ≤ k := by
      by_contra hlt
      have : 2 ^ k ≤ 2 ^ 1 := Nat.pow_le_pow_right (by omega) (by omega)
      omega
    omega
  have hpow : 2 ^ (j + 2) = 2 ^ j * 4 := pow_add 2 j 2
  have heven : 2 ∣ t.nchains := ⟨2 ^ j * 2, by omega⟩
  apply valid_holds_of_mem
  · refine ⟨j + 1, ?_, ?_⟩
    · show t.nchains / 2 = 2 ^ (j + 1)
      omega
    · show t.mask >>> 1 = 2 ^ (j + 1) - 1
      omega
  · show t.highmark / 2 = t.nchains / 2 * 2
    have := h.highmark
    omega
  · show t.lowmark / 2 * 2 = t.nchains / 2
    omega
  · intro i hi n
    exact h.mem_shrinkTable heven hi n
  · intro i hi
    have hi' : i < t.nchains / 2 := hi
    simp only [shrinkTable, if_pos hi']
    refine List.Nodup.append (h.nodup i (by omega)) (h.nodup _ (by omega)) ?_
    intro n h1 h2
    have e1 := h.chain i (by omega) n h1
    have e2 := h.chain _ (by omega) n h2
    omega

end Shrink

/-! ### Insertion and deletion -/

section Update

variable {hkey : α → ℕ} {t : Table α}

/-- Replacing the chain of `n` by one with the nodes `P`. -/
theorem Valid.setChain_holds (h : Valid hkey t) {l : List α} (count : ℕ) (nodup : l.Nodup)
    (mem : ∀ m, m ∈ l ↔ P m ∧ chainOf hkey t m = chainOf hkey t n)
    (rest : ∀ m, chainOf hkey t m ≠ chainOf hkey t n → (P m ↔ Holds hkey t m)) :
    Valid hkey { t.setChain (chainOf hkey t n) l with nodecount := count } ∧
      ∀ m, Holds hkey { t.setChain (chainOf hkey t n) l with nodecount := count } m ↔ P m := by
  apply valid_holds_of_mem
  · exact h.size
  · exact h.highmark
  · exact h.lowmark
  · intro i hi m
    show m ∈ (if i = chainOf hkey t n then l else t.table i) ↔ P m ∧ hkey m % t.nchains = i
    rw [← h.chainOf_eq_mod]
    split_ifs with hc
    · rw [mem, hc]
    · rw [h.mem_table_iff hi]
      constructor
      · rintro ⟨hm, e⟩
        exact ⟨(rest m (by rw [e]; exact hc)).mpr hm, e⟩
      · rintro ⟨hm, e⟩
        exact ⟨(rest m (by rw [e]; exact hc)).mp hm, e⟩
  · intro i hi
    show (if i = chainOf hkey t n then l else t.table i).Nodup
    split_ifs with hc
    · exact nodup
    · exact h.nodup i hi

theorem Valid.push_holds (h : Valid hkey t) (hn : ¬Holds hkey t n) (count : ℕ) :
    Valid hkey { t.setChain (chainOf hkey t n) (n :: t.table (chainOf hkey t n)) with
        nodecount := count } ∧
      ∀ m, Holds hkey { t.setChain (chainOf hkey t n) (n :: t.table (chainOf hkey t n)) with
        nodecount := count } m ↔ m = n ∨ Holds hkey t m := by
  apply h.setChain_holds
  · exact nodup_cons.mpr ⟨hn, h.nodup _ (h.chainOf_lt n)⟩
  · intro m
    rw [mem_cons, h.mem_table_iff (h.chainOf_lt n)]
    constructor
    · rintro (rfl | ⟨hm, e⟩)
      · exact ⟨.inl rfl, rfl⟩
      · exact ⟨.inr hm, e⟩
    · rintro ⟨rfl | hm, e⟩
      · exact .inl rfl
      · exact .inr ⟨hm, e⟩
  · intro m hm
    constructor
    · rintro (rfl | h)
      · exact absurd rfl hm
      · exact h
    · exact .inr

theorem Valid.hashInsert_holds (h : Valid hkey t) (hn : ¬Holds hkey t n) (realloc : Bool) :
    Valid hkey (hashInsert hkey realloc t n) ∧
      ∀ m, Holds hkey (hashInsert hkey realloc t n) m ↔ m = n ∨ Holds hkey t m := by
  obtain ⟨hv, hh⟩ : Valid hkey (growIfDue hkey realloc t) ∧
      ∀ n, Holds hkey (growIfDue hkey realloc t) n ↔ Holds hkey t n := by
    rw [growIfDue]
    split_ifs
    · exact h.growTable_holds
    · exact ⟨h, fun _ => Iff.rfl⟩
  obtain ⟨hv', hh'⟩ := hv.push_holds (fun hc => hn ((hh n).mp hc))
    ((growIfDue hkey realloc t).nodecount + 1)
  refine ⟨hv', fun m => ?_⟩
  rw [← hh m]
  exact hh' m

theorem Valid.chainOf_le_chainOf_hashInsert (h : Valid hkey t) (realloc : Bool) (n m : α) :
    chainOf hkey t m ≤ chainOf hkey (hashInsert hkey realloc t n) m := by
  show chainOf hkey t m ≤ chainOf hkey (growIfDue hkey realloc t) m
  rw [growIfDue]
  split_ifs
  · exact h.chainOf_le_chainOf_growTable m
  · exact le_rfl

/-- A failed lookup means that no stored node compares equal. -/
theorem same_eq_false_of_hashLookup {same : α → α → Bool} (h : hashLookup hkey same t n = none)
    (hm : Holds hkey t m) (hkeys : hkey m = hkey n) : same m n = false := by
  have hmem : m ∈ t.table (chainOf hkey t n) := by
    rw [Holds, chainOf_congr hkeys] at hm
    exact hm
  have := find?_eq_none.mp h m hmem
  simpa [hkeys] using this

@[simp] theorem nodecount_hashInsert (realloc : Bool) (n : α) :
    (hashInsert hkey realloc t n).nodecount = t.nodecount + 1 := by
  show (growIfDue hkey realloc t).nodecount + 1 = t.nodecount + 1
  rw [growIfDue]
  split_ifs
  · rfl
  · rfl

@[simp] theorem maxcount_hashInsert (realloc : Bool) (n : α) :
    (hashInsert hkey realloc t n).maxcount = t.maxcount := by
  show (growIfDue hkey realloc t).maxcount = t.maxcount
  rw [growIfDue]
  split_ifs
  · rfl
  · rfl

theorem nchains_hashInsert (realloc : Bool) (n : α) : (hashInsert hkey realloc t n).nchains =
    if t.highmark ≤ t.nodecount && realloc then t.nchains * 2 else t.nchains := by
  show (growIfDue hkey realloc t).nchains = _
  rw [growIfDue]
  split_ifs
  · rfl
  · rfl

variable [DecidableEq α]

@[simp] theorem nodecount_hashDelete (n : α) :
    (hashDelete hkey t n).nodecount = t.nodecount - 1 := by
  show (shrinkIfDue t).nodecount - 1 = t.nodecount - 1
  rw [shrinkIfDue]
  split_ifs
  · rfl
  · rfl

@[simp] theorem maxcount_hashDelete (n : α) : (hashDelete hkey t n).maxcount = t.maxcount := by
  show (shrinkIfDue t).maxcount = t.maxcount
  rw [shrinkIfDue]
  split_ifs
  · rfl
  · rfl

theorem nchains_hashDelete (n : α) : (hashDelete hkey t n).nchains =
    if t.nodecount ≤ t.lowmark && initSize < t.nodecount then t.nchains / 2 else t.nchains := by
  show (shrinkIfDue t).nchains = _
  rw [shrinkIfDue]
  split_ifs
  · rfl
  · rfl

theorem Valid.hashScanDelete_holds (h : Valid hkey t) (n : α) :
    Valid hkey (hashScanDelete hkey t n) ∧
      ∀ m, Holds hkey (hashScanDelete hkey t n) m ↔ m ≠ n ∧ Holds hkey t m := by
  have hnd := h.nodup _ (h.chainOf_lt n)
  apply h.setChain_holds
  · exact hnd.erase n
  · intro m
    rw [hnd.mem_erase_iff, h.mem_table_iff (h.chainOf_lt n), and_assoc]
  · intro m hm
    constructor
    · exact And.right
    · intro hh
      refine ⟨?_, hh⟩
      rintro rfl
      exact hm rfl

omit [DecidableEq α] in
theorem Valid.shrinkIfDue_holds (h : Valid hkey t) :
    Valid hkey (shrinkIfDue t) ∧ ∀ n, Holds hkey (shrinkIfDue t) n ↔ Holds hkey t n := by
  rw [shrinkIfDue]
  split_ifs with hc
  · rw [Bool.and_eq_true, decide_eq_true_eq, decide_eq_true_eq] at hc
    exact h.shrinkTable_holds (by omega)
  · exact ⟨h, fun _ => Iff.rfl⟩

theorem Valid.hashDelete_holds (h : Valid hkey t) (n : α) : Valid hkey (hashDelete hkey t n) ∧
      ∀ m, Holds hkey (hashDelete hkey t n) m ↔ m ≠ n ∧ Holds hkey t m := by
  obtain ⟨hv, hh⟩ := h.shrinkIfDue_holds
  obtain ⟨hv', hh'⟩ := hv.hashScanDelete_holds n
  refine ⟨hv', fun m => ?_⟩
  rw [← hh m]
  exact hh' m

/-- Unlinking a list of nodes one after the other. -/
theorem Valid.foldl_hashScanDelete_holds (l : List α) : ∀ {t : Table α}, Valid hkey t →
    Valid hkey (l.foldl (hashScanDelete hkey) t) ∧
      ∀ m, Holds hkey (l.foldl (hashScanDelete hkey) t) m ↔ m ∉ l ∧ Holds hkey t m := by
  induction l with
  | nil =>
    intro t h
    exact ⟨h, fun m => by simp⟩
  | cons n l ih =>
    intro t h
    obtain ⟨hv, hh⟩ := h.hashScanDelete_holds n
    obtain ⟨hv', hh'⟩ := ih hv
    refine ⟨hv', fun m => ?_⟩
    rw [foldl_cons, hh', hh, mem_cons, not_or, and_left_comm, and_assoc]

theorem Valid.hashScanRemove_holds (h : Valid hkey t) (p : α → Bool) :
    Valid hkey (hashScanRemove hkey p t) ∧
      ∀ m, Holds hkey (hashScanRemove hkey p t) m ↔ p m = false ∧ Holds hkey t m := by
  obtain ⟨hv, hh⟩ := Valid.foldl_hashScanDelete_holds (t.nodes.filter p) h
  refine ⟨hv, fun m => ?_⟩
  rw [hashScanRemove, hh, mem_filter, h.mem_nodes_iff, ← Bool.not_eq_true]
  constructor
  · rintro ⟨h1, h2⟩
    exact ⟨fun hp => h1 ⟨h2, hp⟩, h2⟩
  · rintro ⟨h1, h2⟩
    exact ⟨fun hc => h1 hc.2, h2⟩

end Update

end Netatalk.Hash
