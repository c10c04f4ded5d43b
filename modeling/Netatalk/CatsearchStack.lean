import Netatalk.CatsearchDb
import Netatalk.Fallible

/-! # The memory of FPCatSearch's directory stack

`clearstack`, `addstack`, `reducestack` and `catsearch` of `etc/afpd/catsearch.c`, seen from the
memory that `dstack` points to.  The stack and its size are statics, so what a failed `realloc`
leaves behind is what the next search of the session begins with.  What a search meets in the
volume is the script of its request.

`addstack` raises `dssize` before it asks for the memory and, when there is none, frees `dstack`
but keeps the pointer.  The next search from the start then finds room on a stack that is gone
(`catsearch_fault_iff`). -/

namespace Netatalk.CatsearchStack

open Fallible List
open Netatalk.Catsearch (Result)

/-- `struct dsitem`. -/
structure DsItem where
  did : ℕ
  checked : Bool
deriving DecidableEq, Inhabited

/-- What `dstack` points to. -/
inductive Block where
  | null
  | live (items : List DsItem)
  | freed
deriving DecidableEq

def Block.items : Block → List DsItem
  | .live items => items
  | _ => []

/-- The statics, and whether a `realloc` of the session has been refused. -/
structure Statics where
  dstack : Block
  dssize : ℕ
  dsidx : ℕ
  saveCidx : Option ℕ
  curPos : ℕ
  refused : Bool
deriving DecidableEq

/-- How a call ends: with an access to memory that is not there, or at `catsearch_end`. -/
inductive Stop where
  | fault
  | leaves (result : Result) (s : Statics)
deriving DecidableEq

/-! ### The stack -/

def dsBsize : ℕ := 128

def clearstack (s : Statics) : Statics := { s with saveCidx := none, dsidx := 0 }

/-- A store into an item. -/
def store (i : ℕ) (f : DsItem → DsItem) (s : Statics) : Except Stop Statics :=
  if i < s.dstack.items.length then .ok { s with dstack := .live (s.dstack.items.modify i f) }
  else .error .fault

def load (i : ℕ) (s : Statics) : Except Stop DsItem :=
  match s.dstack.items[i]? with
  | some item => .ok item
  | none => .error .fault

def push (did : ℕ) (s : Statics) : Except Stop Statics :=
  store s.dsidx (fun _ => ⟨did, false⟩) { s with dsidx := s.dsidx + 1 }

/-- The stack with the memory of a `realloc` that succeeded. -/
def grown (s : Statics) : Statics :=
  { s with
    dssize := s.dssize + dsBsize
    dstack := .live (s.dstack.items ++
      replicate (s.dssize + dsBsize - s.dstack.items.length) default) }

/-- `addstack`; `grows` is whether `realloc` finds memory, should it be called.  Both callers leave
with `AFPERR_MISC` if it does not. -/
def addstack (grows : Bool) (did : ℕ) (s : Statics) : Except Stop Statics :=
  if s.dsidx < s.dssize then push did s
  else if s.dstack = .freed then .error .fault
  else if grows then push did (grown s)
  else
    .error (.leaves .misc { clearstack s with
      dssize := s.dssize + dsBsize
      dstack := if s.dstack = .null then .null else .freed
      refused := true })

/-- The loop of `reducestack`, down from `dsidx`. -/
def reduceLoop (s : Statics) : ℕ → Except Stop ℕ
  | 0 => .error (.leaves .eof { s with dsidx := 0 })
  | n + 1 => do
    let item ← load n s
    if item.checked then reduceLoop s n else .ok n

/-- `reducestack`; the search ends with the stack. -/
def reducestack (s : Statics) : Except Stop (ℕ × Statics) :=
  match s.saveCidx with
  | some r => .ok (r, { s with saveCidx := none })
  | none => do
    let n ← reduceLoop s s.dsidx
    return (n, { s with dsidx := n + 1 })

/-- The head of the loop over the stack, which reads the DID for `dirlookup`. -/
def turn (s : Statics) : Except Stop (ℕ × Statics) := do
  let next ← reducestack s
  let _ ← load next.1 next.2
  return next

/-! ### The search -/

/-- What the search meets: a name, a folder to push, the end of a folder or one that `EACCES`
closes, a reason to pause, an error. -/
inductive Event where
  | name
  | folder (did : ℕ) (grows : Bool)
  | done
  | pause
  | fail (nfile : Bool)

/-- The locals of the loops: the index of the folder, the position and the statics. -/
structure Loop where
  cidx : ℕ
  pos : ℕ
  s : Statics

def Loop.next (l : Loop) : Loop := { l with pos := (l.pos + 1) % 2 ^ 32 }

def event (l : Loop) : Event → Except Stop Loop
  | .name => .ok l.next
  | .folder did grows => do
    let s ← addstack grows did l.s
    return { l.next with s := s }
  | .done => do
    let s ← store l.cidx (fun item => { item with checked := true }) l.s
    let (cidx, s) ← turn s
    return ⟨cidx, l.pos, s⟩
  | .pause => .error (.leaves .ok { l.s with curPos := l.pos, saveCidx := some l.cidx })
  | .fail nfile => .error (.leaves (if nfile then .nfile else .misc) l.s)

/-- A request: its position, the folder to search, whether there is memory for it and whether the
working directory can be opened, and what the search meets. -/
structure Request where
  pos : ℕ
  did : ℕ
  grows : Bool
  opensCwd : Bool
  events : List Event

/-- The search from the stack it finds.  A script that is over is a `dirlookup` that fails. -/
def search (r : Request) (s : Statics) : Except Stop Unit :=
  if r.opensCwd then do
    let (cidx, s) ← turn s
    let l ← r.events.foldlM event ⟨cidx, r.pos, s⟩
    throw (.leaves .misc l.s)
  else .error (.leaves .misc s)

def catsearch (r : Request) (s : Statics) : Except Stop Unit :=
  if r.pos ≠ 0 ∧ r.pos ≠ s.curPos then .error (.leaves .catchng s)
  else if r.pos = 0 then do
    let s ← addstack r.grows r.did (clearstack s)
    search r s
  else search r s

/-- The statics a session comes to. -/
inductive Reached : Statics → Prop
  | initial : Reached ⟨.null, 0, 0, none, 0, false⟩
  | search {r : Request} {s s' : Statics} {result : Result} :
      Reached s → catsearch r s = .error (.leaves result s') → Reached s'

/-! ### The stack while its memory is there, and after it is gone -/

/-- The memory holds `dssize` items, and the indices stay below what is filled. -/
structure Held (s : Statics) : Prop where
  refused : s.refused = false
  ne_freed : s.dstack ≠ .freed
  length_items : s.dstack.items.length = s.dssize
  dsidx_le : s.dsidx ≤ s.dssize
  saveCidx_lt : ∀ c ∈ s.saveCidx, c < s.dsidx

/-- What a refused `realloc` leaves: an empty stack with room for items that no memory backs. -/
structure Lost (s : Statics) : Prop where
  refused : s.refused = true
  items : s.dstack.items = []
  dssize_pos : 0 < s.dssize
  dsidx : s.dsidx = 0
  saveCidx : s.saveCidx = none

/-- A call ends with its stack held, or lost and an error. -/
def Fine : Stop → Prop
  | .fault => False
  | .leaves result s => Held s ∨ Lost s ∧ result = .misc

variable {i : ℕ} {s : Statics}

section
variable (h : Held s)
include h

theorem Held.store (hi : i < s.dssize) (f : DsItem → DsItem) :
    Ends (store i f s) Fine fun s' => Held s' ∧ s'.dsidx = s.dsidx := by
  have hlen := h.length_items
  rw [CatsearchStack.store, if_pos (hlen ▸ hi)]
  refine ⟨{ h with ne_freed := by simp, length_items := ?_ }, rfl⟩
  simpa [Block.items] using hlen

theorem Held.load (hi : i < s.dsidx) : Ends (load i s) Fine fun _ => True := by
  rw [CatsearchStack.load, getElem?_eq_getElem (h.length_items ▸ hi.trans_le h.dsidx_le)]
  trivial

theorem Held.push (did : ℕ) (hlt : s.dsidx < s.dssize) :
    Ends (push did s) Fine fun s' => Held s' ∧ s.dsidx ≤ s'.dsidx := by
  have hnext : Held { s with dsidx := s.dsidx + 1 } :=
    { h with
      dsidx_le := hlt, saveCidx_lt := fun c hc => (h.saveCidx_lt c hc).trans (Nat.lt_succ_self _) }
  exact (hnext.store hlt _).mono fun s' hs' => ⟨hs'.1, hs'.2 ▸ Nat.le_succ _⟩

theorem Held.addstack (grows : Bool) (did : ℕ) :
    Ends (addstack grows did s) Fine fun s' => Held s' ∧ s.dsidx ≤ s'.dsidx := by
  have hle := h.dsidx_le
  have hlen := h.length_items
  unfold CatsearchStack.addstack
  split_ifs with hlt hg
  · exact h.push did hlt
  · exact absurd ‹_› h.ne_freed
  · refine Held.push (s := grown s) ⟨h.refused, by simp [grown], ?_, ?_, h.saveCidx_lt⟩ did ?_
    · simp only [grown, Block.items, length_append, length_replicate] at hlen ⊢
      omega
    · exact hle.trans (Nat.le_add_right _ _)
    · exact hle.trans_lt (Nat.lt_add_of_pos_right (by decide))
  all_goals exact .inr ⟨⟨rfl, rfl, Nat.add_pos_right _ (by decide), rfl, rfl⟩, rfl⟩

theorem Held.reduceLoop (hs : s.saveCidx = none) {n : ℕ} (hn : n ≤ s.dsidx) :
    Ends (reduceLoop s n) Fine (· < s.dsidx) := by
  induction n with
  | zero => exact .inl { h with dsidx_le := zero_le, saveCidx_lt := by simp [hs] }
  | succ n ih =>
    refine (h.load hn).bind fun item _ => ?_
    split_ifs
    · exact ih (Nat.le_of_succ_le hn)
    · exact hn

theorem Held.reducestack : Ends (reducestack s) Fine fun c => Held c.2 ∧ c.1 < c.2.dsidx := by
  unfold CatsearchStack.reducestack
  cases hs : s.saveCidx with
  | some r =>
    exact ⟨{ h with saveCidx_lt := by simp }, h.saveCidx_lt r hs⟩
  | none =>
    refine (h.reduceLoop hs le_rfl).bind fun n hn => ⟨?_, Nat.lt_succ_self n⟩
    exact { h with dsidx_le := Nat.le_trans hn h.dsidx_le, saveCidx_lt := by simp }

theorem Held.turn : Ends (turn s) Fine fun c => Held c.2 ∧ c.1 < c.2.dsidx :=
  h.reducestack.bind fun _ hc => (hc.1.load hc.2).bind fun _ _ => hc

end

theorem Held.event {l : Loop} (h : Held l.s ∧ l.cidx < l.s.dsidx) (e : Event) :
    Ends (event l e) Fine fun l' => Held l'.s ∧ l'.cidx < l'.s.dsidx := by
  obtain ⟨h, hc⟩ := h
  cases e with
  | name => exact ⟨h, hc⟩
  | folder did grows =>
    exact (h.addstack grows did).bind fun s' hs' => ⟨hs'.1, hc.trans_le hs'.2⟩
  | done =>
    refine (h.store (hc.trans_le h.dsidx_le) _).bind fun s' hs' => ?_
    exact hs'.1.turn.bind fun c hc => hc
  | pause =>
    refine .inl { h with saveCidx_lt := ?_ }
    rintro c ⟨⟩
    exact hc
  | fail => exact .inl h

theorem Held.search (h : Held s) (r : Request) : Ends (search r s) Fine fun _ => False := by
  unfold CatsearchStack.search
  split_ifs
  · refine h.turn.bind fun c hc => ?_
    exact (Ends.foldlM (fun l e hl => Held.event hl e) hc r.events).bind fun l hl => .inl hl.1
  · exact .inl h

theorem Held.catsearch (h : Held s) (r : Request) :
    Ends (catsearch r s) Fine fun _ => False := by
  unfold CatsearchStack.catsearch
  split_ifs
  · exact .inl h
  · have hclear : Held (clearstack s) :=
      { h with dsidx_le := zero_le, saveCidx_lt := by simp [clearstack] }
    exact (hclear.addstack r.grows r.did).bind fun s' hs' => hs'.1.search r
  · exact h.search r

/-- With the memory gone a search from the start writes to it, and every other leaves the stack
alone. -/
theorem Lost.catsearch (h : Lost s) (r : Request) :
    if r.pos = 0 then catsearch r s = .error .fault
    else ∃ result, catsearch r s = .error (.leaves result s) := by
  obtain ⟨dstack, dssize, dsidx, saveCidx, curPos, refused⟩ := s
  obtain ⟨-, hitems, hpos, rfl, rfl⟩ := h
  unfold CatsearchStack.catsearch
  split_ifs with h0 hp hp
  · exact absurd h0 hp.1
  · simp_all [CatsearchStack.addstack, clearstack, CatsearchStack.push, CatsearchStack.store]
  · exact ⟨_, rfl⟩
  · cases hr : r.opensCwd with
    | false => exact ⟨.misc, by simp [CatsearchStack.search, hr]⟩
    | true => exact ⟨.eof, by rw [CatsearchStack.search, if_pos hr]; rfl⟩

theorem Reached.held_or_lost (h : Reached s) : Held s ∨ Lost s := by
  induction h with
  | initial => exact .inl ⟨rfl, by simp, rfl, le_rfl, by simp⟩
  | @search r s s' result _ hs ih =>
    rcases ih with ih | ih
    · have hend := ih.catsearch r
      rw [hs] at hend
      exact hend.imp_right And.left
    · have hend := ih.catsearch r
      rw [hs] at hend
      split_ifs at hend
      · cases hend
      · obtain ⟨_, ⟨⟩⟩ := hend
        exact .inr ih

/-- In every session: a search accesses memory that is not there exactly if it is from the start
and a `realloc` was refused before it.  The search that meets the refusal reports `AFPERR_MISC`. -/
theorem catsearch_fault_iff (hs : Reached s) (r : Request) :
    (catsearch r s = .error .fault ↔ r.pos = 0 ∧ s.refused = true) ∧
      ∀ result s', catsearch r s = .error (.leaves result s') → s.refused = false →
        s'.refused = true → result = .misc := by
  rcases hs.held_or_lost with h | h
  · have hend := h.catsearch r
    refine ⟨iff_of_false ?_ (by simp [h.refused]), ?_⟩
    · intro hf
      rw [hf] at hend
      exact hend
    · intro result s' hc _ href
      rw [hc] at hend
      rcases hend with h' | h'
      · exact absurd (h'.refused.symm.trans href) (by simp)
      · exact h'.2
  · refine ⟨?_, fun result s' _ hf => absurd (h.refused.symm.trans hf) (by simp)⟩
    have hend := h.catsearch r
    split_ifs at hend with h0
    · exact iff_of_true hend ⟨h0, h.refused⟩
    · obtain ⟨result, hend⟩ := hend
      simp [hend, h0]

/-- A first search with 127 folders in the searched one, and no memory for the 129th item. -/
def fullStack : Request :=
  ⟨0, 2, true, true, replicate 127 (.folder 17 true) ++ [.folder 17 false]⟩

/-- It fails and frees the stack. -/
theorem fullStack_frees : catsearch fullStack ⟨.null, 0, 0, none, 0, false⟩ =
    .error (.leaves .misc ⟨.freed, 256, 0, none, 0, true⟩) := by decide +kernel

theorem catsearch_fault_fullStack :
    ¬catsearch fullStack ⟨.null, 0, 0, none, 0, false⟩ = .error .fault ∧
      catsearch fullStack ⟨.freed, 256, 0, none, 0, true⟩ = .error .fault := by
  rw [(catsearch_fault_iff .initial fullStack).1,
    (catsearch_fault_iff (.search .initial fullStack_frees) fullStack).1]
  decide

/-- The next search from the start writes to the stack that is gone. -/
theorem catsearch_after_freed : ∃ s, catsearch fullStack ⟨.null, 0, 0, none, 0, false⟩ =
      .error (.leaves .misc s) ∧ s.dstack = .freed ∧ catsearch fullStack s = .error .fault :=
  ⟨_, fullStack_frees, rfl, by decide +kernel⟩

end Netatalk.CatsearchStack
