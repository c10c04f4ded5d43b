import Mathlib.Data.Nat.Notation
import Mathlib.Logic.Relation

/-! # The idle worker's handshake

The model of `etc/afpd/idle_worker.c` together with the poll loop of `afp_dsi.c` that drives it:
the main thread and the worker as two programs over the shared flags, one atomic load or store a
step, interleaved in any order.  The atomics are sequentially consistent.

The work the worker drains is the queue of invalid directory entries and the ring of deferred
child purges, kept here as their lengths.  The worker is started before the session serves its
first request, with both queues empty. -/

namespace Netatalk.IdleWorker

/-- Where the main thread stands. -/
inductive MainPc where
  /-- serving requests and hints -/
  | serving
  /-- behind an enqueue, before `iw_note_work` stores `iw_has_work` -/
  | noting
  /-- in `iw_grant`, before the load of `iw_has_work` -/
  | grantLoad
  /-- in `iw_grant`, before the store of `iw_can_work` -/
  | grantStore
  /-- in `poll` -/
  | polling
  /-- in `iw_revoke`, before the store of `iw_can_work` -/
  | revokeStore
  /-- in `iw_wait_release`, before a load of `iw_is_working` -/
  | waiting
  /-- in `iw_shutdown`, before each of its stores, and in its join -/
  | shutRevoke
  | shutFlag
  | joining
  | gone
deriving DecidableEq, Repr

/-- Where the worker stands in `iw_main`. -/
inductive WorkerPc where
  /-- before the load of `iw_shutdown_flag` -/
  | top
  /-- awake, before the first load of `iw_can_work` -/
  | wake
  /-- before the store of `iw_is_working` -/
  | publish
  /-- before the second load of `iw_can_work` -/
  | recheck
  /-- before the store that takes back `iw_is_working` -/
  | abort
  /-- before the load of `iw_can_work` in the first drain loop -/
  | freeTest
  /-- before the dequeue of an invalid entry -/
  | freeOne
  /-- before the load of `iw_can_work` in the second drain loop -/
  | chainTest
  /-- before `dircache_has_deferred_work` -/
  | chainHas
  /-- in `dircache_process_deferred_chain` -/
  | chainOne
  /-- before `iw_work_pending` -/
  | pending
  /-- before the store that clears `iw_has_work` -/
  | clear
  /-- before the store that clears `iw_is_working` -/
  | release
  | exited
deriving DecidableEq, Repr

/-- The flags, the two threads and the lengths of the two queues. -/
structure State where
  hasWork : Bool
  canWork : Bool
  isWorking : Bool
  shutdownFlag : Bool
  granted : Bool
  invalid : ℕ
  deferred : ℕ
  main : MainPc
  worker : WorkerPc
deriving DecidableEq, Repr

/-- The state behind `iw_init`. -/
def init : State := ⟨false, false, false, false, false, 0, 0, .serving, .top⟩

/-- A step of the main thread. -/
inductive MainStep : State → State → Prop
  /-- `dir_remove` and `dircache_defer_free` enqueue an invalid entry -/
  | enqueueInvalid {s : State} : s.main = .serving →
      MainStep s { s with main := .noting, invalid := s.invalid + 1 }
  /-- `dircache_remove_children_defer` enqueues a job -/
  | enqueueDeferred {s : State} : s.main = .serving →
      MainStep s { s with main := .noting, deferred := s.deferred + 1 }
  | note {s : State} : s.main = .noting →
      MainStep s { s with main := .serving, hasWork := true }
  /-- `dircache_flush_deferred_for_vol` drops jobs -/
  | flush {s : State} (n : ℕ) : s.main = .serving → n ≤ s.deferred →
      MainStep s { s with deferred := n }
  | revokeSignalSafe {s : State} : s.main = .serving → MainStep s { s with canWork := false }
  | enterGrant {s : State} : s.main = .serving → MainStep s { s with main := .grantLoad }
  | grantSkip {s : State} : s.main = .grantLoad → s.hasWork = false →
      MainStep s { s with main := .polling }
  | grantTake {s : State} : s.main = .grantLoad → s.hasWork = true →
      MainStep s { s with main := .grantStore }
  | grantStore {s : State} : s.main = .grantStore →
      MainStep s { s with main := .polling, canWork := true, granted := true }
  /-- without a grant `iw_revoke` returns at once -/
  | pollUngranted {s : State} : s.main = .polling → s.granted = false →
      MainStep s { s with main := .serving }
  | pollGranted {s : State} : s.main = .polling → s.granted = true →
      MainStep s { s with main := .revokeStore }
  | revokeStore {s : State} : s.main = .revokeStore →
      MainStep s { s with main := .waiting, canWork := false }
  /-- the wait spins or sleeps while the worker is busy -/
  | waitBusy {s : State} : s.main = .waiting → s.isWorking = true → MainStep s s
  | waitDone {s : State} : s.main = .waiting → s.isWorking = false →
      MainStep s { s with main := .serving, granted := false }
  | enterShutdown {s : State} : s.main = .serving → MainStep s { s with main := .shutRevoke }
  | shutRevoke {s : State} : s.main = .shutRevoke →
      MainStep s { s with main := .shutFlag, canWork := false }
  | shutFlag {s : State} : s.main = .shutFlag →
      MainStep s { s with main := .joining, shutdownFlag := true }
  | join {s : State} : s.main = .joining → s.worker = .exited → MainStep s { s with main := .gone }

/-- A step of the worker. -/
inductive WorkerStep : State → State → Prop
  | leave {s : State} : s.worker = .top → s.shutdownFlag = true →
      WorkerStep s { s with worker := .exited }
  | sleep {s : State} : s.worker = .top → s.shutdownFlag = false →
      WorkerStep s { s with worker := .wake }
  | wakeIdle {s : State} : s.worker = .wake → s.canWork = false →
      WorkerStep s { s with worker := .top }
  | wakeGranted {s : State} : s.worker = .wake → s.canWork = true →
      WorkerStep s { s with worker := .publish }
  | publish {s : State} : s.worker = .publish →
      WorkerStep s { s with worker := .recheck, isWorking := true }
  | recheckRevoked {s : State} : s.worker = .recheck → s.canWork = false →
      WorkerStep s { s with worker := .abort }
  | recheckGranted {s : State} : s.worker = .recheck → s.canWork = true →
      WorkerStep s { s with worker := .freeTest }
  | abort {s : State} : s.worker = .abort →
      WorkerStep s { s with worker := .top, isWorking := false }
  | freeRevoked {s : State} : s.worker = .freeTest → s.canWork = false →
      WorkerStep s { s with worker := .chainTest }
  | freeGranted {s : State} : s.worker = .freeTest → s.canWork = true →
      WorkerStep s { s with worker := .freeOne }
  | freeEmpty {s : State} : s.worker = .freeOne → s.invalid = 0 →
      WorkerStep s { s with worker := .chainTest }
  | freeOne {s : State} (n : ℕ) : s.worker = .freeOne → s.invalid = n + 1 →
      WorkerStep s { s with worker := .freeTest, invalid := n }
  | chainRevoked {s : State} : s.worker = .chainTest → s.canWork = false →
      WorkerStep s { s with worker := .pending }
  | chainGranted {s : State} : s.worker = .chainTest → s.canWork = true →
      WorkerStep s { s with worker := .chainHas }
  | chainEmpty {s : State} : s.worker = .chainHas → s.deferred = 0 →
      WorkerStep s { s with worker := .pending }
  | chainSome {s : State} : s.worker = .chainHas → s.deferred ≠ 0 →
      WorkerStep s { s with worker := .chainOne }
  /-- a call of `dircache_process_deferred_chain` retires jobs or none -/
  | chainOne {s : State} (n : ℕ) : s.worker = .chainOne → n ≤ s.deferred →
      WorkerStep s { s with worker := .chainTest, deferred := n }
  | pendingSome {s : State} : s.worker = .pending → 0 < s.invalid + s.deferred →
      WorkerStep s { s with worker := .release }
  | pendingNone {s : State} : s.worker = .pending → s.invalid + s.deferred = 0 →
      WorkerStep s { s with worker := .clear }
  | clear {s : State} : s.worker = .clear →
      WorkerStep s { s with worker := .release, hasWork := false }
  | release {s : State} : s.worker = .release →
      WorkerStep s { s with worker := .top, isWorking := false }

/-- A step of either thread. -/
def Step (s s' : State) : Prop := MainStep s s' ∨ WorkerStep s s'

/-- The states an interleaving of the two threads leads to. -/
def Reachable (s : State) : Prop := Relation.ReflTransGen Step init s

/-! ### The two sides of the handshake -/

/-- The main thread is between the grant and the return of the revoke. -/
def State.InGrant (s : State) : Prop :=
  (s.main = .polling ∧ s.granted = true) ∨ s.main = .revokeStore ∨ s.main = .waiting

/-- The worker is in its validated work window. -/
def WorkerPc.inWindow : WorkerPc → Bool
  | .freeTest | .freeOne | .chainTest | .chainHas | .chainOne | .pending | .clear | .release => true
  | _ => false

/-- The worker has published `iw_is_working` and not taken it back. -/
def WorkerPc.published : WorkerPc → Bool
  | .recheck | .abort => true
  | pc => pc.inWindow

/-- Work is queued. -/
def State.Queued (s : State) : Prop := 0 < s.invalid + s.deferred

/-- What the two threads' places say about the flags. -/
structure Handshake (s : State) : Prop where
  published : s.isWorking = s.worker.published
  /-- the grant is on only while the main thread polls or is about to revoke it -/
  canWork : s.canWork = true → s.granted = true ∧ (s.main = .polling ∨ s.main = .revokeStore)
  granted : s.granted = true → s.main = .polling ∨ s.main = .revokeStore ∨ s.main = .waiting
  revoking : s.main = .revokeStore ∨ s.main = .waiting → s.granted = true
  window : s.worker.inWindow = true → s.granted = true

theorem inWindow_published {pc : WorkerPc} (h : pc.inWindow = true) : pc.published = true := by
  cases pc <;> simp_all [WorkerPc.inWindow, WorkerPc.published]

variable {s s' : State}

theorem handshake_mainStep (h : Handshake s) (hs : MainStep s s') : Handshake s' := by
  obtain ⟨hp, hc, hg, hr, hw⟩ := h
  cases hs
  -- the revoke returns only once the flag is down, which the window holds up
  case waitDone hm hidle =>
    have hout : ¬ s.worker.inWindow = true := by
      intro hin
      rw [hp, inWindow_published hin] at hidle
      exact Bool.noConfusion hidle
    exact ⟨hp, fun hcan => by simp_all, by simp, by simp, fun hin => absurd hin hout⟩
  all_goals constructor <;> simp_all

theorem handshake_workerStep (h : Handshake s) (hs : WorkerStep s s') : Handshake s' := by
  obtain ⟨hp, hc, hg, hr, hw⟩ := h
  cases hs
  all_goals constructor <;> simp_all [WorkerPc.published, WorkerPc.inWindow]

theorem Handshake.inGrant (h : Handshake s) (hin : s.worker.inWindow = true) : s.InGrant := by
  have hg := h.window hin
  rcases h.granted hg with hm | hm | hm
  · exact .inl ⟨hm, hg⟩
  · exact .inr (.inl hm)
  · exact .inr (.inr hm)

/-! ### Queued work is noted -/

/-- Whatever is queued is noted, and the note is taken back only over empty queues. -/
structure Noted (s : State) : Prop where
  noted : s.Queued → s.main ≠ .noting → s.hasWork = true
  drained : s.worker = .clear → ¬ s.Queued

theorem noted_mainStep (hh : Handshake s) (h : Noted s) (hs : MainStep s s') : Noted s' := by
  -- a serving main thread never meets the worker at its clear
  have hclear : s.main = .serving → s.worker ≠ .clear := by
    intro hm hw
    have hin := hh.inGrant (by rw [hw]; rfl)
    simp [State.InGrant, hm] at hin
  obtain ⟨hn, hd⟩ := h
  unfold State.Queued at hn hd
  cases hs
  case enqueueInvalid hm => exact ⟨by simp, fun hw => absurd hw (hclear hm)⟩
  case enqueueDeferred hm => exact ⟨by simp, fun hw => absurd hw (hclear hm)⟩
  case flush n hm hle =>
    refine ⟨fun hq hne => hn ?_ hne, fun hw => absurd hw (hclear hm)⟩
    unfold State.Queued at hq
    dsimp only at hq
    omega
  all_goals constructor <;> simp_all [State.Queued]

theorem noted_workerStep (h : Noted s) (hs : WorkerStep s s') : Noted s' := by
  obtain ⟨hn, hd⟩ := h
  unfold State.Queued at hn hd
  cases hs
  case freeOne n hw hi =>
    refine ⟨fun hq hne => hn ?_ hne, by simp⟩
    omega
  case chainOne n hw hle =>
    refine ⟨fun hq hne => hn ?_ hne, by simp⟩
    unfold State.Queued at hq
    dsimp only at hq
    omega
  all_goals constructor <;> simp_all [State.Queued]

theorem Reachable.inv (h : Reachable s) : Handshake s ∧ Noted s := by
  induction h with
  | refl =>
    refine ⟨?_, ?_⟩
    · constructor <;> simp [init, WorkerPc.published, WorkerPc.inWindow]
    · constructor <;> simp [init, State.Queued]
  | tail _ hs ih =>
    obtain ⟨hh, hn⟩ := ih
    rcases hs with hs | hs
    · exact ⟨handshake_mainStep hh hs, noted_mainStep hh hn hs⟩
    · exact ⟨handshake_workerStep hh hs, noted_workerStep hn hs⟩

/-- In every interleaving the worker's window lies in a grant interval of the main thread, and
outside a window queued work is noted as soon as the main thread has called `iw_note_work`; at
the load that decides the grant it always is. -/
theorem window_inGrant_and_work_noted {s : State} (h : Reachable s) :
    ¬ (¬ s.InGrant ∧ s.worker.inWindow = true) ∧
      (s.Queued → s.worker.inWindow = false → s.main ≠ .noting → s.hasWork = true) ∧
      (s.Queued → s.main = .grantLoad → s.hasWork = true) := by
  obtain ⟨hh, hn⟩ := h.inv
  refine ⟨?_, fun hq _ hm => hn.noted hq hm, fun hq hm => hn.noted hq (by simp [hm])⟩
  rintro ⟨hout, hin⟩
  exact hout (hh.inGrant hin)

/-- A queued entry, noted and granted, with the worker at its first dequeue. -/
def working : State := ⟨true, true, true, false, true, 1, 0, .polling, .freeOne⟩

theorem window_inGrant_and_work_noted_working :
    Reachable working ∧ working.worker.inWindow = true ∧ working.Queued ∧
      ¬ (¬ working.InGrant ∧ working.worker.inWindow = true) := by
  have hrun : Reachable working :=
    .tail (.tail (.tail (.tail (.tail (.tail (.tail (.tail (.tail (.tail .refl
      (.inl (.enqueueInvalid rfl))) (.inl (.note rfl))) (.inl (.enterGrant rfl)))
      (.inl (.grantTake rfl rfl))) (.inl (.grantStore rfl))) (.inr (.sleep rfl rfl)))
      (.inr (.wakeGranted rfl rfl))) (.inr (.publish rfl))) (.inr (.recheckGranted rfl rfl)))
      (.inr (.freeGranted rfl rfl))
  exact ⟨hrun, rfl, Nat.one_pos, (window_inGrant_and_work_noted hrun).1⟩

end Netatalk.IdleWorker
