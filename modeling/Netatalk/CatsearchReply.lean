import Netatalk.Bytes
import Netatalk.CatsearchDb

/-! # The records of an FPCatSearch reply

`rslt_add` (`etc/afpd/catsearch.c`) on the bytes of the reply buffer, which hold what earlier
replies left there; its end is not modelled.  An odd block of parameters is evened out by a zero
that goes to its first byte, where the cursor still stands, and the byte that the length field
counts beyond the block is left as it was. -/

namespace Netatalk.Catsearch

open List Netatalk.Bytes

/-- The buffer with bytes written to an offset. -/
def put (m : ℕ → UInt8) (off : ℕ) (bs : List UInt8) : ℕ → UInt8 := fun i =>
  if off ≤ i then bs.getD (i - off) (m i) else m i

/-- The bytes at an offset. -/
def get (m : ℕ → UInt8) (off n : ℕ) : List UInt8 := (range n).map fun i => m (off + i)

/-- The width of the length field: `sizeof(resultsize)` or one byte. -/
def lenWidth (ext : Bool) : ℕ := if ext then 2 else 1

/-- `FILDIRBIT_ISDIR` or `FILDIRBIT_ISFILE`. -/
def kindByte (isdir : Bool) : UInt8 := if isdir then 0x80 else 0

/-- `rslt_add` on the buffer and its cursor.  `params` is what `getdirparams` or `getfilparams`
writes, if it succeeds. -/
def rsltAddBytes (ext : Bool) (b : (ℕ → UInt8) × ℕ) (o : Bool × Option (List UInt8)) :
    Option ((ℕ → UInt8) × ℕ) :=
  o.2.map fun bs =>
    let p := b.2 + lenWidth ext
    let m := put b.1 p [kindByte o.1]
    let m := if ext then put m (p + 1) [0] else m
    let p := if ext then p + 2 else p + 1
    let m := put m p bs
    -- `p` has not moved over the parameters
    let m := if bs.length % 2 = 1 then put m p [0] else m
    (put m b.2 (beBytes (lenWidth ext) (bs.length + bs.length % 2)),
      b.2 + rsltAdd ext bs.length)

/-- A reader that follows the length fields from `pos` meets the objects in order and stops at
`stop`: each has its kind and its parameters, and at most one zero behind them. -/
def Decodes (ext : Bool) (m : ℕ → UInt8) (stop : ℕ) : List (Bool × List UInt8) → ℕ → Prop
  | [], pos => pos = stop
  | o :: objs, pos =>
    let n := beNat (get m pos (lenWidth ext))
    let p := pos + 2 * lenWidth ext
    m (pos + lenWidth ext) = kindByte o.1 ∧ get m p o.2.length = o.2 ∧
      (n = o.2.length ∨ n = o.2.length + 1 ∧ m (p + o.2.length) = 0) ∧
      Decodes ext m stop objs (p + n)

/-- The length fields hold the lengths, and where a block is odd its first byte and the byte of
the buffer behind it are zero. -/
def Faithful (ext : Bool) (m : ℕ → UInt8) : List (Bool × List UInt8) → ℕ → Prop
  | [], _ => True
  | o :: objs, pos => o.2.length + o.2.length % 2 < 256 ^ lenWidth ext ∧
      (o.2.length % 2 = 1 → o.2.head? = some 0 ∧
        m (pos + 2 * lenWidth ext + o.2.length) = 0) ∧
      Faithful ext m objs (pos + rsltAdd ext o.2.length)

theorem rsltAdd_eq (ext : Bool) (n : ℕ) : rsltAdd ext n = 2 * lenWidth ext + (n + n % 2) := by
  unfold rsltAdd lenWidth
  split_ifs <;> omega

section bytes
variable {m m' : ℕ → UInt8} {off i n : ℕ} {bs : List UInt8}

theorem put_of_lt (h : i < off) : put m off bs i = m i := if_neg (by omega)

theorem put_of_ge (h : off + bs.length ≤ i) : put m off bs i = m i := by
  rw [put, if_pos (by omega), getD_eq_default _ _ (by omega)]

theorem get_put (h : bs.length = n) : get (put m off bs) off n = bs := by
  apply ext_getElem
  · simp [get, h]
  · intro i hi hb
    simp [get, put, hb]

theorem put_head {a : UInt8} : put (put m off (a :: bs)) off [0] = put m off (0 :: bs) := by
  funext i
  unfold put
  split_ifs
  · cases i - off <;> simp
  · rfl

theorem get_congr (h : ∀ i, off ≤ i → i < off + n → m i = m' i) : get m off n = get m' off n := by
  apply map_congr_left
  intro i hi
  rw [mem_range] at hi
  exact h _ (by omega) (by omega)

end bytes

/-- What a record holds: its header, and the block of parameters, of which an odd one has lost its
first byte. -/
structure Written (ext isdir : Bool) (bs : List UInt8) (pos : ℕ) (m m' : ℕ → UInt8) : Prop where
  len : get m' pos (lenWidth ext) = beBytes (lenWidth ext) (bs.length + bs.length % 2)
  kind : m' (pos + lenWidth ext) = kindByte isdir
  block : get m' (pos + 2 * lenWidth ext) bs.length =
    if bs.length % 2 = 1 then 0 :: bs.drop 1 else bs
  below : ∀ i < pos, m' i = m i
  above : ∀ i, pos + 2 * lenWidth ext + bs.length ≤ i → m' i = m i

theorem rsltAddBytes_some (ext isdir : Bool) (bs : List UInt8) (m : ℕ → UInt8) (pos : ℕ) :
    ∃ m', rsltAddBytes ext (m, pos) (isdir, some bs) = some (m', pos + rsltAdd ext bs.length) ∧
      Written ext isdir bs pos m m' := by
  refine ⟨_, rfl, ?_⟩
  have hlen := length_beBytes (lenWidth ext) (bs.length + bs.length % 2)
  have hp : (if ext then pos + lenWidth ext + 2 else pos + lenWidth ext + 1) =
      pos + 2 * lenWidth ext := by cases ext <;> rfl
  simp only [hp]
  constructor
  case len => exact get_put hlen
  case kind =>
    cases ext <;> split_ifs <;> simp [put, lenWidth]
  case block =>
    refine (get_congr fun i hi _ => put_of_ge (by omega)).trans ?_
    by_cases ho : bs.length % 2 = 1
    · obtain ⟨a, t, rfl⟩ := exists_cons_of_length_pos (l := bs) (by omega)
      simp only [if_pos ho, put_head]
      exact get_put rfl
    · simp only [if_neg ho]
      exact get_put rfl
  case below =>
    intro i hi
    split_ifs <;> simp (disch := omega) only [put_of_lt]
  case above =>
    intro i hi
    have hone {m : ℕ → UInt8} {x : UInt8} {off : ℕ} (h : off < i) : put m off [x] i = m i :=
      put_of_ge h
    split_ifs at hp ⊢ <;> simp (disch := omega) only [hone, put_of_ge]

/-- What a reader makes of the first record. -/
theorem Written.decodes {ext isdir : Bool} {bs : List UInt8} {pos stop : ℕ}
    {m m₁ m' : ℕ → UInt8} (h : Written ext isdir bs pos m m₁)
    (hm : ∀ i < pos + rsltAdd ext bs.length, m' i = m₁ i) (objs : List (Bool × List UInt8)) :
    Decodes ext m' stop ((isdir, bs) :: objs) pos ↔
      bs.length + bs.length % 2 < 256 ^ lenWidth ext ∧ (bs.length % 2 = 1 →
        bs.head? = some 0 ∧ m (pos + 2 * lenWidth ext + bs.length) = 0) ∧
      Decodes ext m' stop objs (pos + rsltAdd ext bs.length) := by
  rw [rsltAdd_eq] at hm ⊢
  have hw : 0 < lenWidth ext := by cases ext <;> decide
  have hn : get m' pos (lenWidth ext) = _ :=
    (get_congr fun i _ hi => hm i (by omega)).trans h.len
  have hb : get m' (pos + 2 * lenWidth ext) bs.length = _ :=
    (get_congr fun i _ hi => hm i (by omega)).trans h.block
  have hk := (hm _ (by omega)).trans h.kind
  simp only [Decodes, hn, beNat_beBytes, hb, hk]
  by_cases hfit : bs.length + bs.length % 2 < 256 ^ lenWidth ext
  · simp only [Nat.mod_eq_of_lt hfit, hfit, ← add_assoc pos]
    rcases Nat.mod_two_eq_zero_or_one bs.length with he | ho
    · simp [he]
    · obtain ⟨a, t, rfl⟩ := exists_cons_of_length_pos (l := bs) (by omega)
      have hpad := (hm _ (by omega)).trans (h.above _ le_rfl)
      simp only [ho, hpad]
      simp [eq_comm, and_assoc]
  · -- a length that was cut is neither that of the block nor one more
    have hcut : (bs.length + bs.length % 2) % 256 ^ lenWidth ext ≠ bs.length ∧
        (bs.length + bs.length % 2) % 256 ^ lenWidth ext ≠ bs.length + 1 := by
      cases ext <;> simp only [lenWidth, if_true, Bool.false_eq_true, if_false] at hfit ⊢ <;> omega
    simp [hcut, hfit]

/-- The reader and the writer over a whole reply. -/
theorem foldlM_rsltAddBytes (ext : Bool) (m₀ : ℕ → UInt8) (objs : List (Bool × List UInt8)) :
    ∀ m pos, (∀ i, pos ≤ i → m i = m₀ i) → ∃ m' stop,
      (objs.map fun o => (o.1, some o.2)).foldlM (rsltAddBytes ext) (m, pos) = some (m', stop) ∧
      (∀ i < pos, m' i = m i) ∧
      (Decodes ext m' stop objs pos ↔ Faithful ext m₀ objs pos) := by
  induction objs with
  | nil =>
    intro m pos _
    exact ⟨m, pos, rfl, fun _ _ => rfl, iff_of_true rfl trivial⟩
  | cons o objs ih =>
    intro m pos hm
    obtain ⟨m₁, he, h⟩ := rsltAddBytes_some ext o.1 o.2 m pos
    have hle := rsltAdd_eq ext o.2.length
    obtain ⟨m', stop, hrun, hbelow, hiff⟩ := ih m₁ (pos + rsltAdd ext o.2.length) fun i hi =>
      (h.above i (by omega)).trans (hm i (by omega))
    refine ⟨m', stop, ?_, fun i hi => (hbelow i (by omega)).trans (h.below i hi), ?_⟩
    · rw [map_cons, foldlM_cons, he]
      exact hrun
    · rw [h.decodes hbelow, hiff, hm _ (by omega)]
      rfl

/-- A reply decodes into the objects it was made of exactly if every length fits its field and
every odd block begins with a zero and ends before one. -/
theorem reply_decodes_iff (ext : Bool) (objs : List (Bool × List UInt8)) (m : ℕ → UInt8) :
    ∃ m' rsize, (objs.map fun o => (o.1, some o.2)).foldlM (rsltAddBytes ext) (m, 0) =
      some (m', rsize) ∧ (Decodes ext m' rsize objs 0 ↔ Faithful ext m objs 0) := by
  obtain ⟨m', rsize, hrun, _, hiff⟩ := foldlM_rsltAddBytes ext m objs m 0 fun _ _ => rfl
  exact ⟨m', rsize, hrun, hiff⟩

/-- A file with the parent 0x01000011 and the name "ab" is reported with another parent. -/
theorem odd_record_loses_byte :
    let params := [1, 0, 0, 0x11, 0, 6, 2, 0x61, 0x62]
    ∃ m' rsize, [(false, some params)].foldlM (rsltAddBytes true) (fun _ => 0, 0) =
      some (m', rsize) ∧ get m' 4 9 = 0 :: params.drop 1 ∧
      ¬ Decodes true m' rsize [(false, params)] 0 :=
  ⟨_, _, rfl, by decide, fun h => absurd h.2.1 (by decide)⟩

end Netatalk.Catsearch
