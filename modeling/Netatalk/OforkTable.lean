import Netatalk.Chains
import Netatalk.Fallible
import Netatalk.Ring
import Mathlib.Data.List.Perm.Subperm

/-! # The table of open forks

The model of `of_alloc`, `of_rekey`, `of_dealloc` and `of_find` of `etc/afpd/ofork.c`.  A session
numbers its open forks by the slots of an array.  Free slots wait in a circular queue: a fork takes
the slot at the head, and a closed fork's slot goes to the tail.  Forks are also chained into 64
buckets by the inode of their file.

* **Memory.**  A fork is its address `Addr`; `live` tells which addresses `malloc` has given out
  and `free` has not taken back, and the fields of a fork are functions of its address.
* **Allocation.**  `Answers` says how the allocations of one `of_alloc` end.  An address that
  `malloc` returns is not in use (`Call.valid`).
* **Assertions.**  A call in which `AFP_ASSERT` fires is an `error`.
* **Numbers.**  `nforks` is at most `0xffff`, so that a slot is a 16-bit reference number. -/

namespace Netatalk.OforkTable

open List Function Option Fallible

abbrev Addr := ℕ

/-- `struct file_key`. -/
structure FileKey where
  dev : ℕ
  inode : ℕ
deriving DecidableEq, Repr

/-- `OFORK_HASHSIZE`. -/
def oforkHashsize : ℕ := 64

/-- `hashfn`: the inode masked to the buckets. -/
def hashfn (key : FileKey) : ℕ := key.inode &&& (oforkHashsize - 1)

/-- The assertions of the module. -/
inductive Fault where
  /-- the free queue is empty after a push -/
  | freeqFull
  /-- a queued slot is in use -/
  | slotInUse
  /-- the fork to free does not own its slot -/
  | notOwner
deriving DecidableEq, Repr

/-- `AFP_ASSERT`. -/
def afpAssert (p : Prop) [Decidable p] (f : Fault) : Except Fault Unit :=
  if p then .ok () else .error f

/-- What the first `of_alloc` allocates: the array of forks and the queue of free slots. -/
structure Table where
  nforks : ℕ
  oforks : ℕ → Option Addr
  freeq : RingQueue ℕ

/-- The module's variables and the forks. -/
structure State where
  table : Option Table
  /-- `ofork_table` and the fields `next` and `prevp` -/
  chains : Chains ℕ Addr
  live : Addr → Bool
  refnum : Addr → ℕ
  key : Addr → FileKey

/-- A session without open forks. -/
def init : State := ⟨none, .empty, fun _ => false, fun _ => 0, fun _ => ⟨0, 0⟩⟩

/-- How the allocations of one `of_alloc` end. -/
structure Answers where
  /-- `getdtablesize` -/
  fdlimit : ℤ
  /-- the two `calloc` of the first call -/
  callocOforks : Bool
  callocFreeq : Bool
  /-- the address of the fork -/
  malloc : Option Addr
  /-- the copy of `upath` -/
  strdupUname : Bool
  /-- the caller hands in the AppleDouble of another fork of the file -/
  shared : Bool
  /-- else a new AppleDouble and the copy of its name -/
  mallocAd : Bool
  strdupPath : Bool

/-! ### The free queue -/

/-- `of_freeq_push`. -/
def ofFreeqPush (slot : ℕ) (q : RingQueue ℕ) : Except Fault (RingQueue ℕ) := do
  let q := q.push slot
  afpAssert (q.head ≠ q.tail) .freeqFull
  return q

/-- The loop that seeds the queue with the slots from `s` on. -/
def seed : ℕ → ℕ → RingQueue ℕ → Except Fault (RingQueue ℕ)
  | _, 0, q => .ok q
  | s, n + 1, q => do
      let q ← ofFreeqPush s q
      seed (s + 1) n q

/-- The size of the table: half the descriptor limit, at least 2 and at most `0xffff`. -/
def tableSize (fdlimit : ℤ) : ℕ :=
  let fdcap := fdlimit.tdiv 2
  let fdcap := if fdcap < 2 then 2 else fdcap
  (if fdcap < 0xffff then fdcap else 0xffff).toNat

/-- The tables as the first `of_alloc` sets them up; slot 0 is reserved. -/
def newTable (nforks : ℕ) : Except Fault Table := do
  let q ← seed 1 (nforks - 1) ⟨fun _ => 0, nforks + 1, 0, 0⟩
  return ⟨nforks, fun _ => none, q⟩

/-! ### The calls -/

/-- An allocation after that of the fork fails. -/
def Answers.fails (a : Answers) : Bool :=
  !a.strdupUname || (!a.shared && (!a.mallocAd || !a.strdupPath))

/-- A fork with its slot, reference number and bucket. -/
def State.insertFork (s : State) (t : Table) (p : Addr) (slot : ℕ) (key : FileKey) : State where
  table := some { t with oforks := update t.oforks slot (some p) }
  chains := s.chains.link (hashfn key) p
  live := update s.live p true
  refnum := update s.refnum p slot
  key := update s.key p key

/-- `of_alloc` once the tables exist: the fork's address, or `NULL`. -/
def ofAllocSlot (a : Answers) (key : FileKey) (s : State) (t : Table) :
    Except Fault (Option Addr × State) :=
  match t.freeq.pop with
  | none => .ok (none, { s with table := some t })
  | some (slot, q) =>
    let t := { t with freeq := q }
    if slot < 1 ∨ t.nforks ≤ slot then .ok (none, { s with table := some t })
    else do
      afpAssert (t.oforks slot = none) .slotInUse
      match a.malloc, a.fails with
      | some p, false => return (some p, s.insertFork t p slot key)
      | _, _ =>
        -- each failure leaves the slot empty and gives it back
        let q ← ofFreeqPush slot q
        return (none, { s with table := some { t with freeq := q } })

/-- `of_alloc`. -/
def ofAlloc (a : Answers) (key : FileKey) (s : State) : Except Fault (Option Addr × State) :=
  match s.table with
  | some t => ofAllocSlot a key s t
  | none =>
    if a.callocOforks && a.callocFreeq then do
      let t ← newTable (tableSize a.fdlimit)
      ofAllocSlot a key s t
    else .ok (none, s)

/-- `of_rekey`. -/
def ofRekey (p : Addr) (key : FileKey) (s : State) : State :=
  { s with
    chains := (s.chains.unlink p).link (hashfn key) p
    key := update s.key p key }

/-- A fork out of its bucket and slot, with the queue `q`. -/
def State.removeFork (s : State) (t : Table) (p : Addr) (q : RingQueue ℕ) : State :=
  { s with
    table := some { t with oforks := update t.oforks (s.refnum p) none, freeq := q }
    chains := s.chains.unlink p
    live := update s.live p false }

/-- `of_dealloc`. -/
def ofDealloc (p : Addr) (s : State) : Except Fault State :=
  match s.table with
  | none => .ok s
  | some t => do
      let slot := s.refnum p
      afpAssert (t.oforks slot = some p) .notOwner
      let q ← ofFreeqPush slot t.freeq
      return s.removeFork t p q

/-- `of_find`. -/
def ofFind (ofrefnum : ℕ) (s : State) : Option Addr :=
  match s.table with
  | none => none
  | some t =>
    if t.nforks = 0 then none
    else
      match t.oforks (ofrefnum % t.nforks) with
      | none => none
      -- the slot holds another fork: the requested one is closed
      | some p => if s.refnum p ≠ ofrefnum then none else some p

/-- A call of the module. -/
inductive Call where
  | alloc (a : Answers) (key : FileKey)
  | rekey (p : Addr) (key : FileKey)
  | dealloc (p : Addr)

/-- A call that a caller can make: on an open fork, with an allocator that gives out no address
that is in use. -/
def Call.valid (s : State) : Call → Bool
  | .alloc a _ => a.malloc.all fun p => !s.live p
  | .rekey p _ => s.live p
  | .dealloc p => s.live p

/-- The state after a call, with the fork that `of_alloc` returns. -/
def call : Call → State → Except Fault (Option Addr × State)
  | .alloc a key, s => ofAlloc a key s
  | .rekey p key, s => .ok (none, ofRekey p key s)
  | .dealloc p, s => do
      let s ← ofDealloc p s
      return (none, s)

/-- A sequence of calls. -/
def run : List Call → State → Except Fault State
  | [], s => .ok s
  | c :: cs, s => do
      let (_, s) ← call c s
      run cs s

/-- Every call of the sequence is valid when it is made. -/
def validRun : List Call → State → Bool
  | [], _ => true
  | c :: cs, s =>
    c.valid s && match call c s with
      | .ok (_, s') => validRun cs s'
      | .error _ => true

/-- The slot that a call takes from the queue, once there is one. -/
def popped : Call → State → Option ℕ
  | .alloc _ _, s => (s.table.bind fun t => t.freeq.pop).map Prod.fst
  | _, _ => none

/-- The slots that the calls of a sequence take from the queue. -/
def taken : List Call → State → List ℕ
  | [], _ => []
  | c :: cs, s =>
    match call c s with
    | .ok (_, s') => (popped c s).toList ++ taken cs s'
    | .error _ => []

/-! ### What holds of the table -/

/-- The slot is free. -/
def State.Free (s : State) (slot : ℕ) : Prop :=
  ∃ t, s.table = some t ∧ 1 ≤ slot ∧ slot < t.nforks ∧ t.oforks slot = none

/-- The slot is held by one open fork, whose reference number it is. -/
def State.HeldBy (s : State) (t : Table) (slot : ℕ) (p : Addr) : Prop :=
  t.oforks slot = some p ∧ ∀ p', (s.live p' = true ∧ s.refnum p' = slot) ↔ p' = p

/-- The table of open forks is in order. -/
structure Sound (s : State) : Prop where
  /-- a slot is held by one fork, or it is empty and queued once -/
  slots : ∀ t, s.table = some t → ∀ slot, 1 ≤ slot → slot < t.nforks →
    ((∃ p, s.HeldBy t slot p) ∧ slot ∉ t.freeq.toList) ∨
    (s.Free slot ∧ (∀ p, s.live p = true → s.refnum p ≠ slot) ∧ t.freeq.toList.count slot = 1)
  /-- nothing else is queued -/
  queued : ∀ t, s.table = some t → ∀ slot ∈ t.freeq.toList, 1 ≤ slot ∧ slot < t.nforks
  /-- a fork is on the chain of its file and on no other -/
  bucket : ∀ p, s.live p = true → ∀ b, s.chains.OnChain b p ↔ b = hashfn (s.key p)
  /-- only open forks are on chains -/
  chained : ∀ b p, s.chains.OnChain b p → s.live p = true
  find : ∀ ofrefnum < 2 ^ 16, ∀ p,
    ofFind ofrefnum s = some p ↔ s.live p = true ∧ s.refnum p = ofrefnum

/-- A closed fork's number goes to another fork only after every slot that was free at the close
has been taken from the queue: by a fork, or by an allocation that failed and gave it back. -/
def ReusedInOrder (cs : List Call) : Prop :=
  ∀ before p between a key after s s₁ p' s₂,
    cs = before ++ .dealloc p :: between ++ .alloc a key :: after →
    run before init = .ok s → run (.dealloc p :: between) s = .ok s₁ →
    call (.alloc a key) s₁ = .ok (some p', s₂) → s₂.refnum p' = s.refnum p →
    ∀ slot, s.Free slot → slot ∈ taken (.dealloc p :: between) s

/-! ### The invariant -/

/-- The slots and the queue, for the open forks `live` and their numbers. -/
structure TableInv (live : Addr → Bool) (refnum : Addr → ℕ) (t : Table) : Prop where
  wf : t.freeq.Wf
  cap : t.freeq.cap = t.nforks + 1
  nodup : t.freeq.toList.Nodup
  free : ∀ slot, slot ∈ t.freeq.toList ↔ 1 ≤ slot ∧ slot < t.nforks ∧ t.oforks slot = none
  owner : ∀ slot p, t.oforks slot = some p ↔ live p = true ∧ refnum p = slot
  range : ∀ p, live p = true → 1 ≤ refnum p ∧ refnum p < t.nforks

/-- The invariant, with the nodes of each chain. -/
structure Inv (s : State) (chains : ℕ → List Addr) : Prop where
  holds : s.chains.Holds chains
  mem : ∀ b p, p ∈ chains b ↔ s.live p = true ∧ hashfn (s.key p) = b
  table : ∀ t, s.table = some t → TableInv s.live s.refnum t
  dead : s.table = none → ∀ p, s.live p = false

variable {a : Answers} {c : Call} {cs : List Call} {p : Addr} {r : Option Addr} {s' : State}

variable {s : State} {q : RingQueue ℕ}

section table
variable {live : Addr → Bool} {refnum : Addr → ℕ} {t : Table}

theorem TableInv.length_lt (h : TableInv live refnum t) (hn : 1 ≤ t.nforks) :
    t.freeq.toList.length < t.nforks := by
  have hsub : t.freeq.toList ⊆ range' 1 (t.nforks - 1) := by
    intro slot hm
    have := (h.free slot).mp hm
    rw [mem_range'_1]
    omega
  have := (subperm_of_subset h.nodup hsub).length_le
  rw [length_range'] at this
  omega

theorem ofFreeqPush_ok (hq : q.Wf) (hroom : q.toList.length + 1 < q.cap) (slot : ℕ) :
    ofFreeqPush slot q = .ok (q.push slot) := by
  obtain ⟨hl, hwf⟩ := hq.toList_push slot hroom
  have hne : (q.push slot).head ≠ (q.push slot).tail := by
    rw [Ne, ← hwf.eq_nil_iff, hl]
    simp
  simp [ofFreeqPush, afpAssert, hne]

/-- Seeding appends the slots in their order. -/
theorem seed_ok (hq : q.Wf) (s n : ℕ) (hroom : q.toList.length + n < q.cap) :
    ∃ q', seed s n q = .ok q' ∧ q'.Wf ∧ q'.cap = q.cap ∧
      q'.toList = q.toList ++ List.range' s n := by
  induction n generalizing s q with
  | zero => exact ⟨q, rfl, hq, rfl, by simp⟩
  | succ n ih =>
    obtain ⟨hl, hwf⟩ := hq.toList_push s (by omega)
    have hroom' : (q.push s).toList.length + n < (q.push s).cap := by
      rw [hl, length_append, length_singleton]
      exact lt_of_eq_of_lt (by omega) hroom
    obtain ⟨q', he, hwf', hcap, hl'⟩ := ih hwf (s + 1) hroom'
    refine ⟨q', ?_, hwf', hcap, ?_⟩
    · rw [seed, ofFreeqPush_ok hq (by omega), ok_bind, he]
    · rw [hl', hl, range'_succ, append_assoc, singleton_append]

theorem newTable_ok (refnum : Addr → ℕ) {n : ℕ} (hn : 2 ≤ n) :
    ∃ t, newTable n = .ok t ∧ t.nforks = n ∧ TableInv (fun _ => false) refnum t := by
  have hq : (⟨fun _ => 0, n + 1, 0, 0⟩ : RingQueue ℕ).Wf := ⟨Nat.succ_pos n, Nat.succ_pos n⟩
  have hnil := hq.eq_nil_iff.mpr rfl
  obtain ⟨q, he, hwf, hcap, hl⟩ := seed_ok hq 1 (n - 1) (by
    rw [hnil, length_nil]
    simp only
    omega)
  rw [hnil, nil_append] at hl
  refine ⟨⟨n, fun _ => none, q⟩, ?_, rfl, hwf, hcap, ?_, ?_, ?_, ?_⟩
  · rw [newTable, he]
    rfl
  · rw [hl]
    exact nodup_range'
  · intro slot
    rw [hl, mem_range'_1]
    simp only [and_true]
    omega
  · simp
  · simp

theorem two_le_tableSize (fdlimit : ℤ) : 2 ≤ tableSize fdlimit := by
  unfold tableSize
  simp only
  split_ifs <;> omega

section pop
variable (h : TableInv live refnum t) {slot : ℕ} {q : RingQueue ℕ}
  (hp : t.freeq.pop = some (slot, q))
include h hp

theorem TableInv.pop_free : 1 ≤ slot ∧ slot < t.nforks ∧ t.oforks slot = none := by
  rw [← h.free, (h.wf.toList_pop hp).1]
  exact mem_cons_self

theorem TableInv.pop_room : q.toList.length + 1 < q.cap := by
  obtain ⟨hl, -, hcap⟩ := h.wf.toList_pop hp
  have := h.length_lt (by have := h.pop_free hp; omega)
  rw [hl, length_cons] at this
  rw [hcap, h.cap]
  omega

theorem TableInv.giveBack : ofFreeqPush slot q = .ok (q.push slot) ∧
    (q.push slot).toList = q.toList ++ [slot] ∧
    TableInv live refnum { t with freeq := q.push slot } := by
  obtain ⟨hl, hwf, hcap⟩ := h.wf.toList_pop hp
  obtain ⟨hl', hwf'⟩ := hwf.toList_push slot (h.pop_room hp)
  have hperm : (q.push slot).toList.Perm t.freeq.toList := by
    rw [hl', hl]
    exact perm_append_singleton slot q.toList
  refine ⟨ofFreeqPush_ok hwf (h.pop_room hp) slot, hl', hwf', hcap.trans h.cap, ?_, ?_, h.owner,
    h.range⟩
  · exact hperm.nodup_iff.mpr h.nodup
  · exact fun slot' => hperm.mem_iff.trans (h.free slot')

theorem TableInv.insert (hlive : live p = false) :
    TableInv (update live p true) (update refnum p slot)
      { t with freeq := q, oforks := update t.oforks slot (some p) } := by
  obtain ⟨hl, hwf, hcap⟩ := h.wf.toList_pop hp
  obtain ⟨h1, h2, h3⟩ := h.pop_free hp
  have hn := h.nodup
  rw [hl, nodup_cons] at hn
  refine ⟨hwf, hcap.trans h.cap, hn.2, ?_, ?_, ?_⟩
  · intro slot'
    have hf := h.free slot'
    rw [hl] at hf
    by_cases he : slot' = slot
    · subst he
      simpa using hn.1
    · simpa [he] using hf
  · intro slot' p'
    have ho := h.owner slot' p'
    by_cases he : slot' = slot
    · subst he
      by_cases hpp : p' = p
      · simp [hpp]
      · rw [h3] at ho
        simp only [update_self, some.injEq, update_of_ne hpp]
        exact ⟨fun e => absurd e.symm hpp, fun e => absurd (ho.mpr e) (by simp)⟩
    · by_cases hpp : p' = p
      · subst hpp
        rw [hlive] at ho
        simp only [update_of_ne he, update_self, true_and, Ne.symm he, iff_false]
        exact fun e => absurd (ho.mp e).1 (by simp)
      · simpa [he, hpp] using ho
  · intro p' hp'
    by_cases hpp : p' = p
    · subst hpp
      simpa using ⟨h1, h2⟩
    · simp only [update_of_ne hpp] at hp' ⊢
      exact h.range p' hp'

end pop

/-- A closed fork's slot goes to the tail. -/
theorem TableInv.remove (h : TableInv live refnum t) (hp : live p = true) :
    t.oforks (refnum p) = some p ∧ ofFreeqPush (refnum p) t.freeq = .ok (t.freeq.push (refnum p)) ∧
    (t.freeq.push (refnum p)).toList = t.freeq.toList ++ [refnum p] ∧
    TableInv (update live p false) refnum
      { t with oforks := update t.oforks (refnum p) none,
               freeq := t.freeq.push (refnum p) } := by
  have hown : t.oforks (refnum p) = some p := (h.owner _ _).mpr ⟨hp, rfl⟩
  obtain ⟨h1, h2⟩ := h.range p hp
  have hroom : t.freeq.toList.length + 1 < t.freeq.cap := by
    have := h.length_lt (by omega)
    rw [h.cap]
    omega
  obtain ⟨hl, hwf⟩ := h.wf.toList_push (refnum p) hroom
  have hnew : refnum p ∉ t.freeq.toList := by
    rw [h.free, hown]
    simp
  refine ⟨hown, ofFreeqPush_ok h.wf hroom _, hl, hwf, h.cap, ?_, ?_, ?_, ?_⟩
  · rw [hl, nodup_append']
    exact ⟨h.nodup, nodup_singleton _, by simpa using hnew⟩
  · intro slot
    rw [hl]
    by_cases he : slot = refnum p
    · subst he
      simp [h1, h2]
    · simpa [he] using h.free slot
  · intro slot p'
    have ho := h.owner slot p'
    by_cases hpp : p' = p
    · subst hpp
      by_cases he : slot = refnum p'
      · subst he
        simp
      · simp only [update_of_ne he, update_self, Bool.false_eq_true, false_and,
          iff_false]
        exact fun e => he (ho.mp e).2.symm
    · by_cases he : slot = refnum p
      · subst he
        rw [hown] at ho
        simp only [update_self, update_of_ne hpp, reduceCtorEq, false_iff]
        exact fun e => hpp (some.inj (ho.mpr e)).symm
      · simpa [he, hpp] using ho
  · intro p' hp'
    by_cases hpp : p' = p
    · subst hpp
      simp at hp'
    · rw [update_of_ne hpp] at hp'
      exact h.range p' hp'

end table

/-! ### One call -/

/-- The queue of free slots; empty before the first allocation. -/
def State.queue (s : State) : List ℕ := (s.table.elim [] fun t => t.freeq.toList)

/-- What a call does: it raises no assertion, keeps the invariant, takes at most the slot at the
head of the queue, and a fork it returns has this slot as its number. -/
structure StepOk (c : Call) (s : State) (r : Option Addr) (s' : State) : Prop where
  eq : call c s = .ok (r, s')
  inv : ∃ chains, Inv s' chains
  advance : s.table ≠ none → s'.table ≠ none ∧ Advance s.queue (popped c s) s'.queue
  number : s.table ≠ none → ∀ p, r = some p → popped c s = some (s'.refnum p)

section calls
variable {s : State} {chains : ℕ → List Addr} (h : Inv s chains)
include h

variable {t : Table}

section
variable (ht : TableInv s.live s.refnum t)
include ht

/-- A new fork enters the slot it took and the chain of its file. -/
theorem Inv.insertFork {slot : ℕ} (hp : t.freeq.pop = some (slot, q)) (hlive : s.live p = false)
    (key : FileKey) : ∃ chains', Inv (s.insertFork { t with freeq := q } p slot key) chains' := by
  have hnew : ∀ b, p ∉ chains b := by
    intro b hm
    rw [h.mem, hlive] at hm
    simp at hm
  refine ⟨_, h.holds.link hnew, fun b p' => ?_, ?_, by simp [State.insertFork]⟩
  · rw [Chains.mem_update_cons, h.mem]
    by_cases hpp : p' = p
    · subst hpp
      simp [State.insertFork, hlive, eq_comm]
    · simp [State.insertFork, hpp]
  · rintro t' ⟨⟩
    exact ht.insert hp hlive

theorem Inv.withTable : Inv { s with table := some t } chains :=
  ⟨h.holds, h.mem, fun t' ht' => by cases ht'; exact ht, by simp⟩

theorem Inv.allocSlot (ha : ∀ p, a.malloc = some p → s.live p = false) (key : FileKey) :
    ∃ r s', ofAllocSlot a key s t = .ok (r, s') ∧ (∃ chains', Inv s' chains') ∧
      (∃ t', s'.table = some t' ∧
        Advance t.freeq.toList (t.freeq.pop.map Prod.fst) t'.freeq.toList) ∧
      ∀ p, r = some p → t.freeq.pop.map Prod.fst = some (s'.refnum p) := by
  cases hp : t.freeq.pop with
  | none =>
    refine ⟨none, { s with table := some t }, by simp [ofAllocSlot, hp],
      ⟨chains, h.withTable ht⟩, ⟨t, rfl, t.freeq.toList, [], rfl, by simp⟩, by simp⟩
  | some x =>
    obtain ⟨slot, q⟩ := x
    obtain ⟨h1, h2, h3⟩ := ht.pop_free hp
    have hl := (ht.wf.toList_pop hp).1
    have hrange : ¬ (slot = 0 ∨ t.nforks ≤ slot) := by omega
    -- whichever allocation failed, the slot goes back
    have failed : (∃ p, a.malloc = some p ∧ a.fails = false) ∨ ofAllocSlot a key s t =
        .ok (none, { s with table := some { t with freeq := q.push slot } }) := by
      rcases hm : a.malloc with _ | p <;> rcases hf : a.fails with _ | _
      all_goals first
        | exact .inl ⟨p, rfl, rfl⟩
        | right
          simp [ofAllocSlot, hp, hrange, h3, afpAssert, hm, hf, (ht.giveBack hp).1]
    rcases failed with ⟨p, hm, hf⟩ | hfail
    · refine ⟨some p, s.insertFork { t with freeq := q } p slot key, ?_,
        h.insertFork ht hp (ha p hm) key, ⟨_, rfl, q.toList, [], hl, by simp⟩, ?_⟩
      · simp [ofAllocSlot, hp, hrange, h3, afpAssert, hm, hf]
      · rintro p' hp'
        cases hp'
        simp [State.insertFork]
    · exact ⟨none, _, hfail, ⟨chains, h.withTable (ht.giveBack hp).2.2⟩,
        ⟨_, rfl, q.toList, [slot], hl, (ht.giveBack hp).2.1⟩, by simp⟩

end

theorem Inv.alloc (ha : ∀ p, a.malloc = some p → s.live p = false) (key : FileKey) :
    ∃ r s', StepOk (.alloc a key) s r s' := by
  cases ht : s.table with
  | some t =>
    obtain ⟨r, s', he, hinv, ⟨t', ht', hadv⟩, hnum⟩ := h.allocSlot (h.table t ht) ha key
    refine ⟨r, s', ?_, hinv, fun _ => ⟨by simp [ht'], ?_⟩, fun _ => ?_⟩
    · simpa [call, ofAlloc, ht] using he
    · simpa [popped, State.queue, ht, ht'] using hadv
    · simpa [popped, ht] using hnum
  | none =>
    by_cases hc : (a.callocOforks && a.callocFreeq) = true
    · have hdead : s.live = fun _ => false := funext (h.dead ht)
      obtain ⟨t, hnew, -, htab⟩ := newTable_ok s.refnum (two_le_tableSize a.fdlimit)
      rw [← hdead] at htab
      obtain ⟨r, s', he, hinv, -, -⟩ := h.allocSlot htab ha key
      refine ⟨r, s', ?_, hinv, fun hn => absurd ht hn, fun hn => absurd ht hn⟩
      rw [call, ofAlloc, ht]
      simp only [hc, if_true]
      rw [hnew, ok_bind, he]
    · refine ⟨none, s, ?_, ⟨chains, h⟩, fun hn => absurd ht hn, fun hn => absurd ht hn⟩
      simp [call, ofAlloc, ht, hc]

theorem Inv.rekey (hp : s.live p = true) (key : FileKey) :
    StepOk (.rekey p key) s none (ofRekey p key s) where
  eq := rfl
  inv := by
    have hmem : p ∈ chains (hashfn (s.key p)) := (h.mem _ _).mpr ⟨hp, rfl⟩
    have hun := h.holds.unlink hmem
    have hgone : ∀ b, p ∉ (chains b).erase p := fun b hm => (h.holds.nodup b).not_mem_erase hm
    refine ⟨_, hun.link hgone, fun b p' => ?_, h.table, h.dead⟩
    rw [Chains.mem_update_cons]
    by_cases hpp : p' = p
    · subst hpp
      simp [ofRekey, hp, hgone, eq_comm]
    · simp [ofRekey, hpp, mem_erase_of_ne, h.mem]
  advance hn := ⟨hn, s.queue, [], rfl, by simp [State.queue, ofRekey]⟩
  number _ p hr := by cases hr

theorem Inv.dealloc (hp : s.live p = true) :
    ∃ s', StepOk (.dealloc p) s none s' ∧ s'.queue = s.queue ++ [s.refnum p] := by
  cases ht : s.table with
  | none =>
    rw [h.dead ht p] at hp
    cases hp
  | some t =>
    obtain ⟨hown, hpush, hl, htab⟩ := (h.table t ht).remove hp
    have hmem : p ∈ chains (hashfn (s.key p)) := (h.mem _ _).mpr ⟨hp, rfl⟩
    have hqueue : (s.removeFork t p (t.freeq.push (s.refnum p))).queue =
        s.queue ++ [s.refnum p] := by
      simp [State.queue, State.removeFork, ht, hl]
    refine ⟨_, ⟨?_, ⟨_, h.holds.unlink hmem, fun b p' => ?_, ?_, by simp [State.removeFork]⟩,
      fun _ => ⟨by simp [State.removeFork], s.queue, [s.refnum p], rfl, hqueue⟩, ?_⟩, hqueue⟩
    · simp [call, ofDealloc, ht, hown, afpAssert, hpush, pure, Except.pure]
    · by_cases hpp : p' = p
      · subst hpp
        simp [State.removeFork, (h.holds.nodup b).not_mem_erase]
      · simp [State.removeFork, hpp, mem_erase_of_ne, h.mem]
    · rintro t' ⟨⟩
      exact htab
    · rintro _ p' ⟨⟩

theorem Inv.step (hc : c.valid s = true) : ∃ r s', StepOk c s r s' := by
  cases c with
  | alloc a key =>
    refine h.alloc (fun p hp => ?_) key
    simpa [Call.valid, hp] using hc
  | rekey p key => exact ⟨_, _, h.rekey hc key⟩
  | dealloc =>
    obtain ⟨s', hs', -⟩ := h.dealloc hc
    exact ⟨_, s', hs'⟩

theorem Inv.ofFind_iff (r : ℕ) (p : Addr) :
    ofFind r s = some p ↔ s.live p = true ∧ s.refnum p = r := by
  cases ht : s.table with
  | none => simp [ofFind, ht, h.dead ht p]
  | some t =>
    have htab := h.table t ht
    -- a live fork with that number is in the slot that `of_find` looks at
    have hslot : s.live p = true ∧ s.refnum p = r →
        t.nforks ≠ 0 ∧ t.oforks (r % t.nforks) = some p := by
      rintro ⟨hp, rfl⟩
      have := htab.range p hp
      rw [Nat.mod_eq_of_lt this.2]
      exact ⟨by omega, (htab.owner _ _).mpr ⟨hp, rfl⟩⟩
    constructor
    · intro hf
      simp only [ofFind, ht] at hf
      split_ifs at hf with hn
      cases ho : t.oforks (r % t.nforks) with
      | none => simp [ho] at hf
      | some =>
        simp only [ho, ite_not, ite_none_right_eq_some, some.injEq] at hf
        obtain ⟨hr, rfl⟩ := hf
        exact ⟨((htab.owner _ _).mp ho).1, hr⟩
    · intro hp
      obtain ⟨hn, ho⟩ := hslot hp
      simp [ofFind, ht, hn, ho, hp.2]

theorem Inv.sound : Sound s where
  slots t ht slot h1 h2 := by
    have htab := h.table t ht
    cases ho : t.oforks slot with
    | some p =>
      refine .inl ⟨⟨p, ho, fun p' => ?_⟩, ?_⟩
      · rw [← htab.owner, ho, some.injEq, eq_comm]
      · rw [htab.free, ho]
        simp
    | none =>
      refine .inr ⟨⟨t, ht, h1, h2, ho⟩, fun p hp hr => ?_, ?_⟩
      · have := (htab.owner slot p).mpr ⟨hp, hr⟩
        rw [ho] at this
        cases this
      · exact count_eq_one_of_mem htab.nodup ((htab.free slot).mpr ⟨h1, h2, ho⟩)
  queued t ht slot hm := by
    have := ((h.table t ht).free slot).mp hm
    exact ⟨this.1, this.2.1⟩
  bucket p hp b := by
    rw [h.holds.onChain_iff, h.mem]
    simp [hp, eq_comm]
  chained b p hc := ((h.mem b p).mp (h.holds.onChain_iff.mp hc)).1
  find r _ p := h.ofFind_iff r p

end calls

/-! ### Runs -/

theorem inv_init : Inv init fun _ => [] where
  holds := Chains.holds_empty
  mem := by simp [init]
  table := by simp [init]
  dead := by simp [init]

theorem validRun_cons (h : validRun (c :: cs) s = true) (he : call c s = .ok (r, s')) :
    c.valid s = true ∧ validRun cs s' = true := by
  simpa [validRun, he] using h

theorem run_cons (he : call c s = .ok (r, s')) : run (c :: cs) s = run cs s' := by
  rw [run, he]
  rfl

theorem validRun_append {cs' : List Call} (h : validRun (cs ++ cs') s = true)
    (hr : run cs s = .ok s') : validRun cs s = true ∧ validRun cs' s' = true := by
  induction cs generalizing s with
  | nil =>
    cases hr
    exact ⟨rfl, h⟩
  | cons c cs ih =>
    rw [run, bind_eq_ok] at hr
    obtain ⟨⟨r, s₁⟩, he, hr⟩ := hr
    obtain ⟨hc, hcs⟩ := validRun_cons h he
    obtain ⟨h₁, h₂⟩ := ih hcs hr
    exact ⟨by simp [validRun, he, hc, h₁], h₂⟩

/-- No assertion fires in a run, and the invariant holds after it. -/
theorem Inv.run {chains : ℕ → List Addr} (h : Inv s chains) (hv : validRun cs s = true) :
    ∃ s' chains', run cs s = .ok s' ∧ Inv s' chains' := by
  induction cs generalizing s chains with
  | nil => exact ⟨s, chains, rfl, h⟩
  | cons c cs ih =>
    have hc : c.valid s = true := by
      simp only [validRun, Bool.and_eq_true] at hv
      exact hv.1
    obtain ⟨r, s₁, hs⟩ := h.step hc
    obtain ⟨chains₁, h₁⟩ := hs.inv
    obtain ⟨s', chains', hr, h'⟩ := ih h₁ (validRun_cons hv hs.eq).2
    exact ⟨s', chains', (run_cons hs.eq).trans hr, h'⟩

/-- What stands in front of a slot in the queue leaves it first. -/
theorem Inv.run_inFront {chains : ℕ → List Addr} (h : Inv s chains) (hn : s.table ≠ none)
    (hv : validRun cs s = true) (hr : OforkTable.run cs s = .ok s') {slots log : List ℕ}
    {slot : ℕ} (hf : InFront slots slot log s.queue) :
    InFront slots slot (log ++ taken cs s) s'.queue ∧ s'.table ≠ none := by
  induction cs generalizing s chains log with
  | nil =>
    cases hr
    simpa [taken] using ⟨hf, hn⟩
  | cons c cs ih =>
    rw [OforkTable.run, bind_eq_ok] at hr
    obtain ⟨⟨r, s₁⟩, he, hr⟩ := hr
    obtain ⟨hc, hcs⟩ := validRun_cons hv he
    obtain ⟨r', s₁', hs⟩ := h.step hc
    have heq := hs.eq.symm.trans he
    cases heq
    obtain ⟨chains₁, h₁⟩ := hs.inv
    obtain ⟨hn₁, hadv⟩ := hs.advance hn
    have := ih h₁ hn₁ hcs hr (hf.advance hadv)
    simpa [taken, he] using this

theorem reusedInOrder (hv : validRun cs init = true) : ReusedInOrder cs := by
  rintro before p between a key after s s₁ p' s₂ rfl hbefore hbetween halloc hsame slot hfree
  rw [append_assoc] at hv
  obtain ⟨hv₀, hv₁⟩ := validRun_append hv hbefore
  obtain ⟨hvd, hva⟩ := validRun_append hv₁ hbetween
  obtain ⟨s₀, chains, hs₀, hinv⟩ := inv_init.run hv₀
  cases hs₀.symm.trans hbefore
  obtain ⟨t, ht, h1, h2, h3⟩ := hfree
  -- the close puts the number behind the slots that are free
  have hlive : s.live p = true := by
    simp only [validRun, Bool.and_eq_true] at hvd
    exact hvd.1
  obtain ⟨sd, hd, hqueue⟩ := hinv.dealloc hlive
  obtain ⟨chainsd, hinvd⟩ := hd.inv
  have hrun : run between sd = .ok s₁ := (run_cons hd.eq).symm.trans hbetween
  have hvb := (validRun_cons hvd hd.eq).2
  have hn := (hd.advance (by simp [ht])).1
  have hfront : InFront s.queue (s.refnum p) [] sd.queue :=
    .inr ⟨s.queue, [], hqueue, fun f hf => .inr hf⟩
  obtain ⟨hfront₁, hn₁⟩ := hinvd.run_inFront hn hvb hrun hfront
  obtain ⟨s₁', chains₁, hs₁', hinv₁⟩ := hinvd.run hvb
  cases hs₁'.symm.trans hrun
  -- the fork takes the head of the queue
  obtain ⟨r, s₂', hstep⟩ := hinv₁.step (validRun_cons hva halloc).1
  cases hstep.eq.symm.trans halloc
  have hhead := hstep.number hn₁ p' rfl
  rw [hsame] at hhead
  obtain ⟨rest, -, hq, -⟩ := (hstep.advance hn₁).2
  rw [hhead] at hq
  obtain ⟨t₁, ht₁⟩ := ne_none_iff_exists'.mp hn₁
  have hnodup : s₁.queue.Nodup := by simpa [State.queue, ht₁] using (hinv₁.table t₁ ht₁).nodup
  rw [hq] at hfront₁ hnodup
  have hmem : slot ∈ s.queue := by
    simpa [State.queue, ht] using ((hinv.table t ht).free slot).mpr ⟨h1, h2, h3⟩
  have := hfront₁.all_of_head hnodup slot hmem
  simpa [taken, hd.eq, popped] using this

/-- Whatever forks are opened, rekeyed and closed and whichever allocations fail: no assertion
fires, the table is in order after every run, and numbers are reused in order. -/
theorem run_sound (cs : List Call) (h : validRun cs init = true) :
    (∃ s, run cs init = .ok s ∧ Sound s) ∧ ReusedInOrder cs := by
  obtain ⟨s, chains, hr, hinv⟩ := inv_init.run h
  exact ⟨⟨s, hr, hinv.sound⟩, reusedInOrder h⟩

/-- A descriptor limit that makes room for the slots 1 to 3; the fork at `p` is allocated. -/
def opens (p : Addr) : Call := .alloc ⟨8, true, true, some p, true, true, true, true⟩ ⟨0, p⟩

/-- The allocation of the fork fails. -/
def failsToOpen : Call := .alloc ⟨8, true, true, none, true, true, true, true⟩ ⟨0, 0⟩

theorem run_sound_reopened :
    (∃ s, run [opens 1, opens 2, .dealloc 1, failsToOpen, opens 4] init = .ok s ∧ Sound s) ∧
      ReusedInOrder [opens 1, opens 2, .dealloc 1, failsToOpen, opens 4] :=
  run_sound _ (by decide +kernel)

/-- The slots that the forks of a sequence of calls got. -/
def handedOut : List Call → State → List ℕ
  | [], _ => []
  | c :: cs, s =>
    match call c s with
    | .ok (some p, s') => s'.refnum p :: handedOut cs s'
    | .ok (none, s') => handedOut cs s'
    | .error _ => []

/-- Slot 3 is free when the fork with number 1 is closed.  A failed allocation moves it to the
tail, behind slot 1, and the next fork gets the number 1 before any fork got slot 3. -/
theorem reused_before_free_slot :
    validRun [opens 1, opens 2, .dealloc 1, failsToOpen, opens 4] init = true ∧
    ∃ s s₁ s₂, run [opens 1, opens 2] init = .ok s ∧ s.Free 3 ∧
      run [.dealloc 1, failsToOpen] s = .ok s₁ ∧ call (opens 4) s₁ = .ok (some 4, s₂) ∧
      s₂.refnum 4 = s.refnum 1 ∧ 3 ∉ handedOut [.dealloc 1, failsToOpen] s := by
  refine ⟨by decide +kernel, _, _, _, rfl, ⟨_, rfl, by decide +kernel⟩, rfl, rfl, ?_⟩
  decide +kernel

end Netatalk.OforkTable
