import Mathlib

/-! # Reloading afp.conf

`load_afp_conf_vols` and `volfile_changed` of `libatalk/util/netatalk_conf.c`, as far as they decide
whether the file is read.  What the system and the parser answer is part of a call.

`volfile_changed` takes the new modification time before the groups of the user are set up.  When
that fails, an earlier read still counts as loaded, so the next call finds the file unchanged and
the edit is lost (`unchanged_lost_iff`). -/

namespace Netatalk.ConfReload

/-- The file's modification time, `volfile`, and whether there are volumes.  `covered` says that a
read was completed since the last edit, `swallowed` that the group setup has failed with the time of
an uncovered edit taken and a read loaded, and that the file was neither edited nor read since. -/
structure State where
  stMtime : ℕ
  mtime : ℕ
  loaded : Bool
  volumes : Bool
  covered : Bool
  swallowed : Bool

/-- A call: the session before its login, the flags, the answers of the system in order, whether the
file parses, whether a volume is dropped and whether volumes are left. -/
structure Call where
  noUser : Bool
  malloc : Bool
  lvForce : Bool
  lvAll : Bool
  stat : Bool
  getpwuid : Bool
  opens : Bool
  locks : Bool
  restat : Bool
  isRoot : Bool
  setGroups : Bool
  parses : Bool
  drops : Bool
  volumes : Bool
  rewrites : Bool

inductive Ret where
  | unchanged
  | ok
  | fail
deriving DecidableEq

/-- `volfile_changed`, with the stored time it leaves. -/
def volfileChanged (c : Call) (s : State) : Bool × ℕ :=
  if !c.restat then (true, s.mtime)
  else if s.mtime < s.stMtime then (true, s.stMtime)
  else (false, s.mtime)

/-- The file is parsed, and the volumes that are gone are dropped. -/
def read (c : Call) (s : State) : Ret × State :=
  (if c.rewrites then .ok else .fail,
    { s with
      loaded := c.parses && !c.drops
      volumes := c.volumes
      covered := c.parses || s.covered
      swallowed := false })

/-- A reload, with the time that the check has left. -/
def reload (c : Call) (mtime : ℕ) (s : State) : Ret × State :=
  if !c.isRoot && !c.lvAll && !c.setGroups then
    (.fail, { s with
      mtime := mtime
      swallowed := s.swallowed || s.loaded && s.mtime != mtime && !s.covered })
  else read c { s with mtime := mtime }

def loadAfpConfVols (c : Call) (s : State) : Ret × State :=
  if c.noUser then (.ok, s)
  else if !c.malloc then (.fail, s)
  else if s.loaded && !c.lvForce && c.stat && s.stMtime ≤ s.mtime then (.unchanged, s)
  else if !c.lvAll && !c.getpwuid then (.fail, s)
  else if !c.opens || !c.locks then (.fail, s)
  else if s.volumes then
    if c.lvForce then reload c s.mtime s
    else if !(volfileChanged c s).1 && s.loaded then (.unchanged, s)
    else reload c (volfileChanged c s).2 s
  else if c.restat then read c { s with mtime := s.stMtime }
  else (.fail, s)

/-- The states of a process whose configuration file is edited and loaded. -/
inductive Reached : State → Prop
  | initial (m : ℕ) : Reached ⟨m, 0, false, false, false, false⟩
  | edit {s : State} {m : ℕ} : Reached s → s.stMtime < m →
      Reached { s with stMtime := m, covered := false, swallowed := false }
  | load {s : State} (c : Call) : Reached s → Reached (loadAfpConfVols c s).2

/-- The stored time is not ahead, and an uncovered edit is past the check only if swallowed. -/
structure Inv (s : State) : Prop where
  mtime_le : s.mtime ≤ s.stMtime
  swallowed : s.swallowed = true ↔ s.loaded = true ∧ s.stMtime ≤ s.mtime ∧ s.covered = false

variable {s : State} {c : Call}

theorem Inv.read (h : s.mtime ≤ s.stMtime) : Inv (read c s).2 := by
  refine ⟨h, ?_⟩
  cases hp : c.parses <;> simp [ConfReload.read, hp]

theorem Inv.reload (h : Inv s) {m : ℕ} (hm : m = s.mtime ∨ s.mtime < m ∧ m = s.stMtime) :
    Inv (reload c m s).2 := by
  have hle := h.mtime_le
  unfold ConfReload.reload
  split_ifs
  · rcases hm with rfl | ⟨hlt, rfl⟩
    · simpa using h
    · -- the check would not have passed before
      have hs : s.swallowed = false := by
        rw [← Bool.not_eq_true, h.swallowed]
        omega
      exact ⟨le_rfl, by simp [hs, hlt.ne]⟩
  · apply Inv.read
    rcases hm with rfl | ⟨_, rfl⟩
    · exact hle
    · exact le_rfl

theorem Inv.load (h : Inv s) : Inv (loadAfpConfVols c s).2 := by
  fun_cases loadAfpConfVols c s with
  | case6 => exact h.reload (.inl rfl)
  | case8 =>
    apply h.reload
    fun_cases volfileChanged c s with
    | case2 _ hlt => exact .inr ⟨hlt, rfl⟩
    | _ => exact .inl rfl
  | case9 => exact Inv.read le_rfl
  | _ => exact h

theorem Reached.inv (h : Reached s) : Inv s := by
  induction h with
  | initial m => exact ⟨Nat.zero_le m, by simp⟩
  | edit _ hm ih =>
    have := ih.mtime_le
    exact ⟨by dsimp only; omega, by simp; omega⟩
  | load c _ ih => exact ih.load

theorem reload_ne_unchanged {m : ℕ} : (reload c m s).1 ≠ .unchanged := by
  unfold reload ConfReload.read
  split_ifs <;> simp

/-- Both checks want an earlier read and a stored time that is not behind. -/
theorem unchanged_cond (h : (loadAfpConfVols c s).1 = .unchanged) :
    s.loaded = true ∧ s.stMtime ≤ s.mtime := by
  unfold loadAfpConfVols volfileChanged ConfReload.read at h
  split_ifs at h <;> simp_all [reload_ne_unchanged]

/-- In every history a call that finds the file unchanged misses an edit that no completed read has
covered exactly if the edit was swallowed. -/
theorem unchanged_lost_iff (hs : Reached s) (c : Call)
    (h : (loadAfpConfVols c s).1 = .unchanged) : s.covered = false ↔ s.swallowed = true := by
  obtain ⟨hloaded, hle⟩ := unchanged_cond h
  simp [hs.inv.swallowed, hloaded, hle]

/-- A call of a user's session in which everything succeeds. -/
def quiet : Call :=
  ⟨false, true, false, false, true, true, true, true, true, false, true, true, false, true, true⟩

def groupsFail : Call := { quiet with setGroups := false }

/-- The file is read and then edited. -/
theorem reached_edited : Reached ⟨2, 1, true, true, false, false⟩ :=
  .edit (m := 2) (.load quiet (.initial 1)) (by decide)

/-- A reload that cannot set the groups misses the edit, and one that can does not. -/
theorem unchanged_lost_edited :
    (loadAfpConfVols groupsFail ⟨2, 1, true, true, false, false⟩).2.covered = false ∧
      (loadAfpConfVols quiet ⟨2, 1, true, true, false, false⟩).2.covered = true := by
  rw [← Bool.not_eq_false,
    unchanged_lost_iff (.load groupsFail reached_edited) quiet (by decide),
    unchanged_lost_iff (.load quiet reached_edited) quiet (by decide)]
  decide

/-- A read, an edit, a reload that cannot set the groups, and a call that finds nothing to do. -/
theorem unchanged_after_groupsFail : ∃ s, Reached s ∧ s.covered = false ∧
    (loadAfpConfVols quiet s).1 = .unchanged :=
  ⟨_, .load groupsFail reached_edited, by decide, by decide⟩

end Netatalk.ConfReload
