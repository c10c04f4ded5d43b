import Mathlib

/-! # The session slots of the ASP server

`asp_getsession` (`libatalk/asp/asp_getsess.c`) admits a session while the server has fewer children
than sessions, and looks for a slot of the session table that is empty or dead.  A child that exits
leaves the child table at once, but its slot only goes dead when `tickle_handler` has not heard of
the session for six ticks.  In between, the children may be few while every slot is held, and the
search ends behind the table.

The table carries its size, so what is stored behind it is lost here; `Outcome.stored` says where
`set_asp_ac` was told to store. -/

namespace Netatalk.Asp

open List

def acstateDead : ℕ := 0
def acstateOk : ℕ := 1
def acstateBad : ℕ := 7

/-- `struct asp_child`, without the address that tickles go to. -/
structure AspChild where
  pid : ℕ
  state : ℕ
deriving DecidableEq, Repr

/-- The child table, by the process IDs, and the session table with a slot for each session. -/
structure Server where
  nsessions : ℕ
  children : List ℕ
  aspAc : List (Option AspChild)
  size : aspAc.length = nsessions

/-- The first call of `asp_getsession` allocates the session table. -/
def start (nsessions : ℕ) : Server := ⟨nsessions, [], List.replicate nsessions none,
  List.length_replicate⟩

/-- `server_child_add`, where the process may be gone and the allocation fail. -/
def serverChildAdd (s : Server) (pid : ℕ) (running alloc : Bool) : Option Server :=
  if s.nsessions ≤ s.children.length then none
  else if !running then none
  else if pid ∈ s.children then some s
  else if alloc then some { s with children := pid :: s.children }
  else none

/-- `server_child_remove`. -/
def serverChildRemove (s : Server) (pid : ℕ) : Server :=
  { s with children := s.children.erase pid }

/-! ### The timer and tickles -/

/-- A turn of the loop of `tickle_handler`. -/
def AspChild.tick (c : AspChild) : AspChild :=
  if c.state = acstateDead then c
  else if acstateBad ≤ c.state + 1 then { c with state := acstateDead }
  else { c with state := c.state + 1 }

def tickleHandler (s : Server) : Server :=
  { s with
    aspAc := s.aspAc.map (Option.map AspChild.tick)
    size := by rw [List.length_map, s.size] }

/-- A tickle from a workstation sets the state of a live session back. -/
def AspChild.refresh (c : AspChild) : AspChild :=
  if c.state = acstateDead then c else { c with state := acstateOk }

/-- `ASPFUNC_TICKLE`. -/
def tickle (s : Server) (sid : UInt8) : Server :=
  { s with
    aspAc := s.aspAc.modify sid.toNat (Option.map AspChild.refresh)
    size := by rw [List.length_modify, s.size] }

/-! ### Opening a session -/

/-- The slot is empty or its session dead. -/
def isFree : Option AspChild → Bool
  | none => true
  | some c => c.state = acstateDead

/-- The search for a slot; behind the table if there is none. -/
def findSlot (s : Server) : ℕ := s.aspAc.findIdx isFree

/-- `asp_ac[sid] = child`, which does nothing here behind the table. -/
def setAspAc (s : Server) (sid : ℕ) (child : Option AspChild) : Server :=
  { s with
    aspAc := s.aspAc.set sid child
    size := by rw [List.length_set, s.size] }

/-- How far the calls for a new session get. -/
inductive Setup where
  /-- No ATP socket: the server gives up. -/
  | noSocket
  /-- No socket pair or pipe, or no nonblocking mode. -/
  | noIpc
  | noFork
  | forked (pid : ℕ) (running alloc malloc : Bool) (port : UInt8)
deriving DecidableEq, Repr

inductive AspErr where
  | ok | servbusy
deriving DecidableEq, Repr

/-- The four bytes of the answer. -/
structure Reply where
  port : UInt8
  sid : UInt8
  err : AspErr
deriving DecidableEq, Repr

/-- The answer to the client, if there is one, and the slot given to `set_asp_ac`. -/
structure Outcome where
  reply : Option Reply
  stored : Option ℕ
deriving DecidableEq, Repr

def busy : Outcome := ⟨some ⟨0, 0, .servbusy⟩, none⟩

/-- `ASPFUNC_OPEN`. -/
def aspOpen (s : Server) (setup : Setup) : Outcome × Server :=
  if s.children.length < s.nsessions then
    let sid := findSlot s
    -- a dead slot is emptied first
    let s := setAspAc s sid none
    match setup with
    | .noSocket => (⟨none, none⟩, s)
    | .noIpc | .noFork => (busy, s)
    | .forked pid running alloc malloc port =>
      match serverChildAdd s pid running alloc with
      | none => (busy, s)
      | some s =>
        if malloc then
          (⟨some ⟨port, UInt8.ofNat sid, .ok⟩, some sid⟩,
            setAspAc s sid (some ⟨pid, acstateOk⟩))
        else (busy, serverChildRemove s pid)
  else (busy, s)

/-! ### Runs -/

inductive Event where
  | openSession (setup : Setup)
  | exit (pid : ℕ)
  | tickle (sid : UInt8)
  | tick
  /-- A session over TCP adds a child as well. -/
  | dsiChild (pid : ℕ) (running alloc : Bool)
deriving DecidableEq, Repr

def step (s : Server) : Event → Outcome × Server
  | .openSession setup => aspOpen s setup
  | .exit pid => (⟨none, none⟩, serverChildRemove s pid)
  | .tickle sid => (⟨none, none⟩, Asp.tickle s sid)
  | .tick => (⟨none, none⟩, tickleHandler s)
  | .dsiChild pid running alloc => (⟨none, none⟩, (serverChildAdd s pid running alloc).getD s)

/-- The steps of a run: the server before, the event, the outcome and the server after. -/
def trace (s : Server) : List Event → List (Server × Event × Outcome × Server)
  | [] => []
  | e :: events => (s, e, step s e) :: trace (step s e).2 events

/-- A step is safe if a session that is answered with success is stored in a slot of the table that
was free, nothing else of the table has changed, and the byte sent to the client is its number; and
if nothing is stored outside the table. -/
def Safe (r : Server × Event × Outcome × Server) : Prop :=
  (∀ reply, r.2.2.1.reply = some reply → reply.err = .ok →
    ∃ sid child, r.2.2.1.stored = some sid ∧ sid < r.1.nsessions ∧
      (∃ slot, r.1.aspAc[sid]? = some slot ∧ isFree slot = true) ∧
      r.2.2.2.aspAc = r.1.aspAc.set sid (some child) ∧ reply.sid.toNat = sid) ∧
  ∀ sid, r.2.2.1.stored = some sid → sid < r.1.nsessions

/-- The event opens a session while children are few, and every call for it succeeds. -/
def Admits (s : Server) : Event → Prop
  | .openSession (.forked pid running alloc malloc _) => s.children.length < s.nsessions ∧
      running = true ∧ (pid ∈ s.children ∨ alloc = true) ∧ malloc = true
  | _ => False

/-- A session that is admitted finds a free slot, the first of them below 256. -/
def Fits (r : Server × Event × Outcome × Server) : Prop :=
  Admits r.1 r.2.1 → (∃ slot ∈ r.1.aspAc, isFree slot = true) ∧ findSlot r.1 < 256

theorem Admits.count {s : Server} {e : Event} (h : Admits s e) :
    s.children.length < s.nsessions := by
  unfold Admits at h
  split at h
  · exact h.1
  · exact h.elim

theorem findSlot_lt_iff (s : Server) :
    findSlot s < s.nsessions ↔ ∃ slot ∈ s.aspAc, isFree slot = true := by
  rw [findSlot, ← s.size, findIdx_lt_length]

variable {alloc running : Bool} {events : List Event} {pid : ℕ} {s s' : Server}
  {slot : Option AspChild}

theorem isFree_findSlot (h : findSlot s < s.nsessions) :
    ∃ slot, s.aspAc[findSlot s]? = some slot ∧ isFree slot = true := by
  have hlt : s.aspAc.findIdx isFree < s.aspAc.length := by rwa [s.size]
  exact ⟨_, getElem?_eq_getElem hlt, findIdx_getElem⟩

theorem aspAc_serverChildAdd
    (h : serverChildAdd s pid running alloc = some s') : s'.aspAc = s.aspAc := by
  unfold serverChildAdd at h
  split_ifs at h <;> cases h <;> rfl

theorem serverChildAdd_eq_none_iff : serverChildAdd s pid running alloc = none ↔
    ¬(s.children.length < s.nsessions ∧ running = true ∧ (pid ∈ s.children ∨ alloc = true)) := by
  unfold serverChildAdd
  split_ifs <;> simp_all

/-- A step either admits a session, answers with success and stores it where the search ended, or it
stores nothing and turns away whom it answers. -/
theorem step_cases (s : Server) (e : Event) :
    (Admits s e ∧ ∃ pid port, (step s e).1 =
          ⟨some ⟨port, UInt8.ofNat (findSlot s), .ok⟩, some (findSlot s)⟩ ∧
        (step s e).2.aspAc = s.aspAc.set (findSlot s) (some ⟨pid, acstateOk⟩)) ∨
      (¬Admits s e ∧ (step s e).1.stored = none ∧
        ∀ reply, (step s e).1.reply = some reply → reply.err = .servbusy) := by
  have hbusy : busy.stored = none ∧ ∀ reply, busy.reply = some reply → reply.err = .servbusy := by
    refine ⟨rfl, fun reply h => ?_⟩
    cases h
    rfl
  have hsilent : ∀ reply, (none : Option Reply) = some reply → reply.err = .servbusy :=
    fun reply h => by cases h
  cases e with
  | exit | tickle | tick | dsiChild => exact .inr ⟨id, rfl, hsilent⟩
  | openSession setup =>
    rw [step, aspOpen]
    split_ifs with hcount
    · cases setup with
      | noSocket => exact .inr ⟨id, rfl, hsilent⟩
      | noIpc | noFork => exact .inr ⟨id, hbusy⟩
      | forked pid running alloc malloc port =>
        dsimp only
        split
        · rename_i hadd
          rw [serverChildAdd_eq_none_iff] at hadd
          exact .inr ⟨fun ⟨h, hrun, hpid, _⟩ => hadd ⟨h, hrun, hpid⟩, hbusy⟩
        · rename_i s' hadd
          cases malloc with
          | false => exact .inr ⟨fun h => Bool.false_ne_true h.2.2.2, hbusy⟩
          | true =>
            have hpid := mt serverChildAdd_eq_none_iff.mpr
              (by rw [hadd]; exact Option.some_ne_none s')
            obtain ⟨h, hrun, hpid⟩ := not_not.mp hpid
            refine .inl ⟨⟨h, hrun, hpid, rfl⟩, pid, port, rfl, ?_⟩
            change s'.aspAc.set (findSlot s) _ = _
            rw [aspAc_serverChildAdd hadd]
            exact set_set _
    · refine .inr ⟨?_, hbusy⟩
      cases setup with
      | noSocket | noIpc | noFork => exact id
      | forked => exact fun h => hcount h.1

theorem nsessions_step (e : Event) : (step s e).2.nsessions = s.nsessions := by
  have hadd : ∀ {s s' : Server} {pid : ℕ} {running alloc : Bool},
      serverChildAdd s pid running alloc = some s' → s'.nsessions = s.nsessions := by
    intro s s' pid running alloc h
    unfold serverChildAdd at h
    split_ifs at h <;> cases h <;> rfl
  cases e with
  | exit | tickle | tick => rfl
  | dsiChild pid running alloc =>
    change ((serverChildAdd s pid running alloc).getD s).nsessions = _
    cases h : serverChildAdd s pid running alloc with
    | none => rfl
    | some => exact hadd h
  | openSession setup =>
    rw [step, aspOpen]
    split_ifs
    · cases setup with
      | noSocket | noIpc | noFork => rfl
      | forked pid running alloc malloc port =>
        dsimp only
        split
        · rfl
        · rename_i s' h
          have hsame := hadd h
          cases malloc <;> exact hsame
    · rfl

theorem safe_iff_fits (e : Event) : Safe (s, e, step s e) ↔ Fits (s, e, step s e) := by
  rcases step_cases s e with ⟨hadmits, pid, port, hout, htable⟩ | ⟨hnot, hstored, hbusy⟩
  · simp only [Safe, Fits, hout, htable]
    constructor
    · rintro ⟨hsafe, -⟩ -
      obtain ⟨sid, child, ⟨⟩, hlt, -, -, hbyte⟩ := hsafe _ rfl rfl
      refine ⟨(findSlot_lt_iff s).mp hlt, ?_⟩
      rw [UInt8.toNat_ofNat'] at hbyte
      omega
    · intro hfits
      obtain ⟨hfree, hbyte⟩ := hfits hadmits
      have hlt := (findSlot_lt_iff s).mpr hfree
      refine ⟨?_, ?_⟩
      · rintro _ ⟨⟩ -
        refine ⟨_, _, rfl, hlt, isFree_findSlot hlt, rfl, ?_⟩
        exact Nat.mod_eq_of_lt hbyte
      · rintro _ ⟨⟩
        exact hlt
  · refine iff_of_true ⟨fun reply h hok => ?_, fun sid h => ?_⟩ fun h => absurd h hnot
    · rw [hbusy reply h] at hok
      cases hok
    · cases hstored.symm.trans h

theorem mem_trace {r : Server × Event × Outcome × Server}
    (h : r ∈ trace s events) : ∃ s' e, r = (s', e, step s' e) := by
  induction events generalizing s with
  | nil => cases h
  | cons e events ih =>
    rcases mem_cons.mp h with rfl | h
    · exact ⟨s, e, rfl⟩
    · exact ih h

/-- For every session limit and every sequence of events, all steps are safe exactly if every
session that is admitted finds a free slot, and the first of them is below 256. -/
theorem trace_safe_iff (nsessions : ℕ) (events : List Event) :
    (∀ r ∈ trace (start nsessions) events, Safe r) ↔
      ∀ r ∈ trace (start nsessions) events, Fits r := by
  refine forall₂_congr fun r hr => ?_
  obtain ⟨s, e, rfl⟩ := mem_trace hr
  exact safe_iff_fits e

/-- One session: its child exits, and the next session is stored behind the table and told the
session ID 1. -/
theorem trace_second_session :
    (trace (start 1) [.openSession (.forked 100 true true true 129), .exit 100,
        .openSession (.forked 101 true true true 130)]).map (·.2.2.1) =
      [⟨some ⟨129, 0, .ok⟩, some 0⟩, ⟨none, none⟩, ⟨some ⟨130, 1, .ok⟩, some 1⟩] ∧
    ¬∀ r ∈ trace (start 1) [.openSession (.forked 100 true true true 129), .exit 100,
        .openSession (.forked 101 true true true 130)], Safe r := by
  refine ⟨by decide, fun h => ?_⟩
  have hstored := (h _ (mem_cons_of_mem _ (mem_cons_of_mem _ mem_cons_self))).2 1 rfl
  exact absurd hstored (by decide)

/-! ### While the tables agree

A child that exits only after its slot has gone dead leaves the two tables in agreement, and then
the number of children bounds the number of slots held. -/

/-- The child of the live session in a slot. -/
def holder : Option AspChild → Option ℕ
  | none => none
  | some c => if c.state = acstateDead then none else some c.pid

theorem holder_eq_none_iff : holder slot = none ↔ isFree slot = true := by
  cases slot with
  | none => exact iff_of_true rfl rfl
  | some => simp [holder, isFree]

/-- The children of the live sessions are different and all in the child table. -/
structure Agrees (s : Server) : Prop where
  nodup : (s.aspAc.filterMap holder).Nodup
  running : s.aspAc.filterMap holder ⊆ s.children

theorem Agrees.exists_free (h : Agrees s) (hcount : s.children.length < s.nsessions) :
    ∃ slot ∈ s.aspAc, isFree slot = true := by
  by_contra hno
  push Not at hno
  have hheld : ∀ slot ∈ s.aspAc, (holder slot).isSome = true := by
    intro slot hslot
    rw [← Option.ne_none_iff_isSome, ne_eq, holder_eq_none_iff]
    exact hno slot hslot
  have hlength : (s.aspAc.filterMap holder).length = s.aspAc.length :=
    filterMap_length_eq_length.mpr hheld
  have hle := (h.nodup.subperm h.running).length_le
  rw [hlength, s.size] at hle
  omega

/-- Putting a session into a free slot. -/
theorem filterMap_set_free {l : List (Option AspChild)} {sid : ℕ}
    (hslot : l[sid]? = some slot) (hfree : isFree slot = true) (new : Option AspChild) :
    ((l.set sid new).filterMap holder).Perm ((holder new).toList ++ l.filterMap holder) := by
  induction l generalizing sid with
  | nil => cases hslot
  | cons first l ih =>
    cases sid with
    | zero =>
      cases hslot
      rw [set_cons_zero, filterMap_cons, filterMap_cons,
        holder_eq_none_iff.mpr hfree]
      cases holder new <;> exact .refl _
    | succ =>
      have hrest := ih hslot
      rw [set_cons_succ, filterMap_cons, filterMap_cons]
      cases holder first with
      | none => exact hrest
      | some pid => exact (hrest.cons pid).trans perm_middle.symm

theorem filterMap_tick_sublist (l : List (Option AspChild)) :
    ((l.map (Option.map AspChild.tick)).filterMap holder).Sublist (l.filterMap holder) := by
  have hslot : ∀ slot, holder (Option.map AspChild.tick slot) = none ∨
      holder (Option.map AspChild.tick slot) = holder slot := by
    intro slot
    cases slot with
    | none => exact .inl rfl
    | some =>
      rw [Option.map_some, AspChild.tick]
      split_ifs with hdead hbad
      · exact .inr rfl
      · exact .inl rfl
      · right
        rw [holder, holder, if_neg hdead]
        rfl
  induction l with
  | nil => exact .slnil
  | cons slot l ih =>
    rw [map_cons, filterMap_cons, filterMap_cons]
    rcases hslot slot with hgone | hsame
    · rw [hgone]
      cases holder slot with
      | none => exact ih
      | some => exact ih.cons _
    · rw [hsame]
      cases holder slot with
      | none => exact ih
      | some => exact ih.cons_cons _

theorem filterMap_refresh (l : List (Option AspChild)) (sid : ℕ) :
    (l.modify sid (Option.map AspChild.refresh)).filterMap holder = l.filterMap holder := by
  have hslot : ∀ slot, holder (Option.map AspChild.refresh slot) = holder slot := by
    intro slot
    cases slot with
    | none => rfl
    | some =>
      rw [Option.map_some, AspChild.refresh]
      split_ifs with hdead
      · rfl
      · rw [holder, holder, if_neg hdead]
        rfl
  induction l generalizing sid with
  | nil => rw [modify_nil]
  | cons slot l ih =>
    cases sid with
    | zero => rw [modify_zero_cons, filterMap_cons, filterMap_cons, hslot]
    | succ => rw [modify_succ_cons, filterMap_cons, filterMap_cons, ih]

/-- A child exits only when its slot is dead, and a new one has a process ID of its own. -/
def Orderly (s : Server) : Event → Prop
  | .exit pid => pid ∉ s.aspAc.filterMap holder
  | .openSession (.forked pid _ _ _ _) => pid ∉ s.children
  | _ => True

theorem Agrees.of_children (h : Agrees s) (htable : s'.aspAc = s.aspAc)
    (hchildren : s.children ⊆ s'.children) : Agrees s' :=
  ⟨htable ▸ h.nodup, htable ▸ List.Subset.trans h.running hchildren⟩

theorem children_serverChildAdd (h : serverChildAdd s pid running alloc = some s') :
    s'.children = s.children ∨ s'.children = pid :: s.children := by
  unfold serverChildAdd at h
  split_ifs at h <;> cases h
  · exact .inl rfl
  · exact .inr rfl

theorem children_eq_cons (h : serverChildAdd s pid running alloc = some s')
    (hnew : pid ∉ s.children) : s'.children = pid :: s.children := by
  unfold serverChildAdd at h
  split_ifs at h
  cases h
  rfl

theorem Agrees.setAspAc_none (h : Agrees s) (hlt : findSlot s < s.nsessions) :
    Agrees (setAspAc s (findSlot s) none) := by
  obtain ⟨slot, hslot, hfree⟩ := isFree_findSlot hlt
  have hperm := filterMap_set_free hslot hfree none
  exact ⟨hperm.nodup_iff.mpr h.nodup, fun pid hpid => h.running (hperm.mem_iff.mp hpid)⟩

theorem Agrees.aspOpen (h : Agrees s) {setup : Setup}
    (ho : Orderly s (.openSession setup)) : Agrees (aspOpen s setup).2 := by
  unfold Asp.aspOpen
  split_ifs with hcount
  · have hlt := (findSlot_lt_iff s).mpr (h.exists_free hcount)
    have hempty := h.setAspAc_none hlt
    cases setup with
    | noSocket | noIpc | noFork => exact hempty
    | forked pid running alloc malloc port =>
      dsimp only
      split
      · exact hempty
      · rename_i s' hadd
        have htable := aspAc_serverChildAdd hadd
        have hnew := children_eq_cons hadd ho
        cases malloc with
        | false =>
          refine hempty.of_children htable ?_
          change s.children ⊆ s'.children.erase pid
          rw [hnew, erase_cons_head]
          exact .refl _
        | true =>
          -- the slot is empty now, and the new child is in neither table
          have hslot : s'.aspAc[findSlot s]? = some none := by
            rw [htable]
            exact getElem?_set_self (s.size.symm ▸ hlt)
          have hperm := filterMap_set_free hslot rfl (some ⟨pid, acstateOk⟩)
          have hheld : s'.aspAc.filterMap holder ⊆ s.children := by
            rw [htable]
            exact hempty.running
          refine ⟨hperm.nodup_iff.mpr (nodup_cons.mpr ⟨fun hmem => ho (hheld hmem), ?_⟩),
            fun pid' hpid' => ?_⟩
          · rw [htable]
            exact hempty.nodup
          · change pid' ∈ s'.children
            rw [hnew]
            rcases mem_cons.mp (hperm.mem_iff.mp hpid') with rfl | hold
            · exact mem_cons_self
            · exact mem_cons_of_mem _ (hheld hold)
  · exact h

theorem Agrees.step (h : Agrees s) {e : Event} (ho : Orderly s e) : Agrees (step s e).2 := by
  cases e with
  | openSession => exact h.aspOpen ho
  | exit pid =>
    refine ⟨h.nodup, fun pid' hpid' => ?_⟩
    have hne : pid' ≠ pid := fun heq => ho (heq ▸ hpid')
    exact (mem_erase_of_ne hne).mpr (h.running hpid')
  | tickle sid =>
    have hsame := filterMap_refresh s.aspAc sid.toNat
    exact ⟨hsame ▸ h.nodup, hsame ▸ h.running⟩
  | tick =>
    have hsub := filterMap_tick_sublist s.aspAc
    exact ⟨h.nodup.sublist hsub, List.Subset.trans hsub.subset h.running⟩
  | dsiChild pid running alloc =>
    change Agrees ((serverChildAdd s pid running alloc).getD s)
    cases hadd : serverChildAdd s pid running alloc with
    | none => exact h
    | some s' =>
      refine h.of_children (aspAc_serverChildAdd hadd) ?_
      change s.children ⊆ s'.children
      rcases children_serverChildAdd hadd with hsame | hnew
      · rw [hsame]
        exact fun _ hp => hp
      · rw [hnew]
        exact subset_cons_self _ _

/-- Every event of the run is orderly. -/
def AllOrderly (s : Server) : List Event → Prop
  | [] => True
  | e :: events => Orderly s e ∧ AllOrderly (step s e).2 events

/-- As long as no child exits before its slot is dead, every session finds a slot. -/
theorem fits_of_allOrderly (h : Agrees s) (ho : AllOrderly s events) (hlimit : s.nsessions ≤ 256) :
    ∀ r ∈ trace s events, Fits r := by
  induction events generalizing s with
  | nil => exact fun r hr => absurd hr not_mem_nil
  | cons e events ih =>
    intro r hr
    rcases mem_cons.mp hr with rfl | hr
    · intro hadmits
      have hfree := h.exists_free hadmits.count
      exact ⟨hfree, ((findSlot_lt_iff s).mpr hfree).trans_le hlimit⟩
    · refine ih (h.step ho.1) ho.2 ?_ r hr
      rwa [nsessions_step]

/-- With at most 256 sessions, all steps are safe as long as no child exits before its slot is
dead. -/
theorem trace_safe_of_allOrderly {nsessions : ℕ} (hlimit : nsessions ≤ 256)
    (ho : AllOrderly (start nsessions) events) : ∀ r ∈ trace (start nsessions) events, Safe r := by
  have hnone : (start nsessions).aspAc.filterMap holder = [] := by
    rw [filterMap_eq_nil_iff]
    intro slot hslot
    rw [eq_of_mem_replicate hslot]
    rfl
  have hstart : Agrees (start nsessions) :=
    ⟨hnone ▸ nodup_nil, hnone ▸ nil_subset _⟩
  intro r hr
  have hfits := fits_of_allOrderly hstart ho hlimit r hr
  obtain ⟨s, e, rfl⟩ := mem_trace hr
  exact (safe_iff_fits e).mpr hfits

/-- One session: its child exits when its slot is dead, and the next session gets the slot. -/
def reopened : List Event :=
  [.openSession (.forked 100 true true true 129), .tick, .tick, .tick, .tick, .tick, .tick,
    .exit 100, .openSession (.forked 101 true true true 130)]

theorem trace_safe_of_allOrderly_reopened :
    (trace (start 1) reopened).filterMap (·.2.2.1.reply) = [⟨129, 0, .ok⟩, ⟨130, 0, .ok⟩] ∧
      ∀ r ∈ trace (start 1) reopened, Safe r :=
  ⟨by decide, trace_safe_of_allOrderly (by decide) ⟨not_mem_nil, trivial, trivial, trivial, trivial,
    trivial, trivial, not_mem_nil, not_mem_nil, trivial⟩⟩

end Netatalk.Asp
