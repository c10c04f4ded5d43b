import Netatalk.AdLockGaps

/-! # Lock calls on one descriptor

What `ad_lock`, `ad_tmplock`, `adf_unlock` and `adf_lock_free` do to the array and to the
kernel's locks of the descriptor they select.  `Outcome` lists everything an `ad_lock` call
can do; that the array stays in order and that the kernel's locks stay the union of the
entries are derived from it. -/

namespace Netatalk.AdLock

open List

variable (env : Env)

/-- The kernel's locks are the union of the recorded entries. -/
def Exact (f : LockFile) : Prop := f.held = unionMap (spans f.lock)

/-! ### Releasing an entry -/

theorem shrinkArray_lock (f : LockFile) : (shrinkArray env f).lock = f.lock := by
  unfold shrinkArray
  split_ifs <;> rfl

theorem shrinkArray_held (f : LockFile) : (shrinkArray env f).held = f.held := by
  unfold shrinkArray
  split_ifs <;> rfl

theorem shrinkArray_fd (f : LockFile) : (shrinkArray env f).fd = f.fd := by
  unfold shrinkArray
  split_ifs <;> rfl

theorem adfFreelock_fd (i : ℕ) (f : LockFile) : (adfFreelock env i f).fd = f.fd := by
  unfold adfFreelock
  cases f.lock[i]? with
  | none => rfl
  | some => exact (shrinkArray_fd env _).trans (adfLockGaps_same env _ _).fd

variable {P : LockFile → Prop} {e : Errno} {f' : LockFile} {i : ℕ} {mode : LockMode} {ret : Ret}
  {shift : ℤ} {t : Locktype} {x : AdfLock}

variable {f : LockFile} {arr : List AdfLock} {lock : Flock} {fork : ℤ}

theorem adfFreelock_of_le (hi : f.lock.length ≤ i) : adfFreelock env i f = f := by
  unfold adfFreelock
  rw [getElem?_eq_none hi]

section release
variable {f : LockFile} (h : Wf f.lock)
include h

theorem adfFreelock_lock (hi : i < f.lock.length) :
    (adfFreelock env i f).lock = reachLoop (-1) (f.lock.eraseIdx i) := by
  unfold adfFreelock
  rw [getElem?_eq_getElem hi]
  rw [shrinkArray_lock, (adfLockGaps_same env _ _).lock]
  exact (h.erase hi).1

theorem adfFreelock_wf : Wf (adfFreelock env i f).lock := by
  by_cases hi : i < f.lock.length
  · rw [adfFreelock_lock env h hi, ← (h.erase hi).1]
    exact (h.erase hi).2
  · rw [adfFreelock_of_le env (not_lt.mp hi)]
    exact h

/-- Releasing an entry frees exactly its bytes that no surviving entry covers. -/
theorem adfFreelock_held (hu : env.Unlocks) (hfd : f.fd = .file) (hi : i < f.lock.length) :
    (adfFreelock env i f).held =
      fill f.held (f.lock[i].start - 1) f.lock[i].last (adfFreelock env i f).lock .free := by
  rw [adfFreelock_lock env h hi, ← (h.erase hi).1]
  have hok := h.ok f.lock[i] (getElem_mem hi)
  unfold adfFreelock
  rw [getElem?_eq_getElem hi]
  rw [shrinkArray_held]
  rcases adfLockGaps_spec env (f := { f with lock := adfLockReach (f.lock.eraseIdx i) i })
    (r := ⟨.unlck, f.lock[i].lock.lStart, f.lock[i].lock.lLen⟩) hfd (h.erase hi).2 hu hok.admissible
    (AdfLock.start_le_last hok) with ⟨f', he, _, hh⟩ | ⟨hty, _⟩
  · rw [he]
    exact hh
  · exact absurd rfl hty

end release

theorem compatible_shares (hc : ∀ e ∈ arr, x.Compatible e) : ∀ y ∈ spans arr, x.span.Shares y := by
  intro y hy
  obtain ⟨e, he, rfl⟩ := List.mem_map.mp hy
  exact (hc e he).shares

/-- Freeing the uncovered bytes of an entry takes its range out of the union. -/
theorem fill_free (hc : ∀ e ∈ arr, x.Compatible e) :
    fill (unionMap (x.span :: spans arr)) (x.start - 1) x.last arr .free =
      unionMap (spans arr) := by
  funext b
  rw [free_unionMap (compatible_shares hc) b]
  refine if_congr ?_ rfl rfl
  rw [covers_iff_span, ← and_assoc]
  refine and_congr_left fun _ => ?_
  simp only [Span.Covers, AdfLock.span]
  omega

theorem unionMap_eraseIdx (hi : i < arr.length) :
    unionMap (spans arr) = unionMap (arr[i].span :: spans (arr.eraseIdx i)) := by
  have hp : Perm (arr[i] :: arr.eraseIdx i) arr := getElem_cons_eraseIdx_perm hi
  exact unionMap_congr fun x => (hp.map AdfLock.span).symm.mem_iff

theorem Wf.compatible_erase (h : Wf arr) (hi : i < arr.length) :
    ∀ e ∈ arr.eraseIdx i, arr[i].Compatible e := by
  intro e he
  obtain ⟨j, hj, rfl⟩ := mem_iff_getElem.mp he
  rw [length_eraseIdx_of_lt hi] at hj
  rw [getElem_eraseIdx]
  split_ifs with hji
  · exact h.compatible hi (by omega) (by omega)
  · exact h.compatible hi (by omega) (by omega)

theorem adfFreelock_exact (h : Wf f.lock) (hu : env.Unlocks) (hfd : f.fd = .file) (hx : Exact f) :
    Exact (adfFreelock env i f) := by
  by_cases hi : i < f.lock.length
  · unfold Exact
    have hc := h.compatible_erase hi
    rw [adfFreelock_held env h hu hfd hi, hx, unionMap_eraseIdx hi, adfFreelock_lock env h hi,
      ← spans_reachLoop (-1)]
    exact fill_free (forall_mem_reachLoop (fun _ _ hp => hp) _ hc)
  · rw [adfFreelock_of_le env (not_lt.mp hi)]
    exact hx

/-! ### Releasing many entries -/

/-- What every release of an entry keeps, `adf_unlock` keeps. -/
theorem adfUnlock_induct (hP : ∀ i f, P f → P (adfFreelock env i f)) (hf : P f) :
    P (adfUnlock env fork f) := by
  unfold adfUnlock
  generalize f.lock.length = n
  induction n generalizing f with
  | zero => exact hf
  | succ n ih =>
    apply ih
    split
    · exact hf
    · split_ifs
      · exact hP n f hf
      · exact hf

theorem adfLockFreeLoop_induct (hP : ∀ i f, P f → P (adfFreelock env i f)) (n : ℕ) (hf : P f) :
    P (adfLockFreeLoop env n f) := by
  induction n generalizing f with
  | zero => exact hf
  | succ n ih => exact ih (hP n f hf)

theorem adfLockFreeLoop_lock {n : ℕ} (h : Wf f.lock) (hn : f.lock.length = n) :
    (adfLockFreeLoop env n f).lock = [] := by
  induction n generalizing f with
  | zero => exact length_eq_zero_iff.mp hn
  | succ n ih =>
    apply ih (adfFreelock_wf env h)
    rw [adfFreelock_lock env h (by omega), reachLoop_length,
      length_eraseIdx_of_lt (by omega)]
    omega

theorem adfLockFree_fd : (adfLockFree env f).fd = f.fd := by
  unfold adfLockFree
  split_ifs with hmax hfd
  · rfl
  · exact adfLockFreeLoop_induct (P := fun f' => f'.fd = f.fd) env
      (fun i f' hf' => (adfFreelock_fd env i f').trans hf') _ rfl
  · rfl

theorem adfLockFree_wf (h : Wf f.lock) : Wf (adfLockFree env f).lock := by
  unfold adfLockFree
  split_ifs
  · exact h
  · exact wf_nil
  · exact wf_nil

/-- An entry-keeping descriptor: its array is well formed, and on an open file the kernel's
locks are the union of the entries. -/
structure Sound (f : LockFile) : Prop where
  wf : Wf f.lock
  exact : f.fd = .file → Exact f

theorem adfFreelock_sound (hu : env.Unlocks) (i : ℕ) (f : LockFile) (h : Sound f) :
    Sound (adfFreelock env i f) where
  wf := adfFreelock_wf env h.wf
  exact hfd := by
    rw [adfFreelock_fd] at hfd
    exact adfFreelock_exact env h.wf hu hfd (h.exact hfd)

theorem adfLockFree_sound (hu : env.Unlocks) (h : Sound f) : Sound (adfLockFree env f) where
  wf := adfLockFree_wf env h.wf
  exact hfd := by
    rw [adfLockFree_fd] at hfd
    unfold adfLockFree
    split_ifs with hmax
    · exact h.exact hfd
    · -- the loop has emptied the array, so the kernel holds nothing
      have hl := adfLockFreeLoop_induct env (adfFreelock_sound env hu) f.lock.length h
      have hfd' := adfLockFreeLoop_induct (P := fun f' => f'.fd = f.fd) env
        (fun i f' hf' => (adfFreelock_fd env i f').trans hf') f.lock.length rfl
      have hx := hl.exact (hfd'.trans hfd)
      unfold Exact at hx ⊢
      rw [adfLockFreeLoop_lock env h.wf rfl] at hx
      exact hx

/-! ### What an `ad_lock` call can do -/

/-- A take that has passed the checks of `ad_lock`, as the entry it would record. -/
structure Take (lock : Flock) (fork : ℤ) (arr : List AdfLock) : Prop where
  ok : (⟨lock, fork, 0⟩ : AdfLock).Ok
  /-- bytes shared with another fork's entry are read locked on both sides -/
  shared : ∀ e ∈ arr, e.user ≠ fork → (⟨lock, fork, 0⟩ : AdfLock).Compatible e

/-- Everything an `ad_lock` call on a descriptor can do. -/
inductive Outcome (fork : ℤ) (f : LockFile) : Ret → LockFile → Prop
  /-- a check fails or the kernel refuses -/
  | refused (e : Errno) (f' : LockFile) : Same f f' → f'.held = f.held → Outcome fork f (.err e) f'
  | released (i : ℕ) (hi : i < f.lock.length) : f.lock[i].user = fork →
      Outcome fork f .ok (adfFreelock env i f)
  | upgraded (lock : Flock) (f' : LockFile) (i : ℕ) (hi : i < f.lock.length) :
      Take lock fork f.lock → f.lock[i].user = fork → lock.lStart = f.lock[i].lock.lStart →
      lock.lLen = f.lock[i].lock.lLen → setLock env lock f = (true, f') →
      Outcome fork f .ok { f' with lock := f'.lock.set i { f.lock[i] with lock := lock } }
  | recorded (lock : Flock) (f' : LockFile) (n m : ℕ) :
      Take lock fork f.lock → (∀ e ∈ f.lock, (⟨lock, fork, 0⟩ : AdfLock).Compatible e) →
      setLock env lock f = (true, f') →
      Outcome fork f .ok (insertLock lock fork { f' with lockmax := n, clock := m })
  /-- the array cannot grow -/
  | unrecorded (lock : Flock) (f' : LockFile) (m : ℕ) :
      Take lock fork f.lock → (∀ e ∈ f.lock, (⟨lock, fork, 0⟩ : AdfLock).Compatible e) →
      setLock env lock f = (true, f') →
      Outcome fork f (.err .enomem)
        (adfLockGaps env { lock with lType := .unlck } { f' with clock := m }).2

theorem inMask_wr_or {e : AdfLock} (h : e.Ok) (rd : Bool) :
    e.inMask rd true = true ↔ rd = true ∨ e.lock.lType = .wrlck := by
  have := h.2.2.2
  unfold AdfLock.inMask
  cases hty : e.lock.lType <;> simp_all

section take
variable {f : LockFile} (h : Wf f.lock)
include h

variable {fork : ℤ} {lock : Flock}

theorem Wf.take (hty : lock.lType = xlateFcntlLock mode)
    (hm : lock.lType ≠ .unlck) (h₀ : 0 ≤ lock.lStart) (hlen : 0 < lock.lLen)
    (hlast : adfLockLast lock.lStart lock.lLen ≤ lockTop)
    (hx : adfFindxlock f.lock fork (mode = .wr) true lock.lStart lock.lLen = none) :
    Take lock fork f.lock where
  ok := ⟨h₀, hlen, hlast, hm⟩
  shared e he hne b hb hb' := by
    have hok := h.ok e he
    have hmask : ¬ (e.inMask (mode = .wr) true && e.user ≠ fork) = true := by
      intro hp
      exact h.findWindow_none ⟨h₀, hlen.le, hlast⟩ hx he hp hb.1 hb.2 hb'
    rw [Bool.and_eq_true, inMask_wr_or hok, not_and_or] at hmask
    simp only [decide_eq_true_eq, not_or, not_not] at hmask
    have hmask := hmask.resolve_right (fun hu => hne hu)
    refine ⟨Ne.symm hne, ?_, ?_⟩
    · cases mode with
      | clr => exact absurd hty hm
      | rd => exact hty
      | wr => exact absurd rfl hmask.1
    · cases hte : e.lock.lType with
      | rdlck => rfl
      | wrlck => exact absurd hte hmask.2
      | unlck => exact absurd hte hok.2.2.2

/-- With no own entry over the range, the take shares bytes only as the array allows. -/
theorem Wf.take_compatible (ht : Take lock fork f.lock)
    (hf : adfFindlock f.lock fork true true lock.lStart lock.lLen = none) :
    ∀ e ∈ f.lock, (⟨lock, fork, 0⟩ : AdfLock).Compatible e := by
  intro e he
  by_cases hu : e.user = fork
  · intro b hb hb'
    have hok := h.ok e he
    have hp : (e.inMask true true && e.user = fork) = true := by
      rw [Bool.and_eq_true, inMask_wr_or hok]
      simp [hu]
    exact absurd hb' (h.findWindow_none ht.ok.admissible hf he hp hb.1 hb.2)
  · exact ht.shared e he hu

end take

theorem recordLock_outcome (ht : Take lock fork f.lock)
    (hc : ∀ e ∈ f.lock, (⟨lock, fork, 0⟩ : AdfLock).Compatible e)
    (hs : setLock env lock f = (true, f')) :
    Outcome env fork f (recordLock env lock fork f').1 (recordLock env lock fork f').2 := by
  unfold recordLock
  split_ifs
  · exact .unrecorded lock f' _ ht hc hs
  · exact .recorded lock f' _ _ ht hc hs
  · exact .recorded lock f' f'.lockmax f'.clock ht hc hs

theorem setLock_refused (hs : setLock env lock f = (false, f')) : Same f f' ∧ f'.held = f.held := by
  have hsame := setLock_same env lock f
  rw [hs] at hsame
  refine ⟨hsame, ?_⟩
  cases hfd : f.fd with
  | closed | symlink => exact hsame.held (by simp [hfd])
  | file =>
    rcases setLock_file env lock hfd with ⟨f₁, he, _⟩ | ⟨f₁, he, _, hh, _⟩
    · cases he.symm.trans hs
    · cases he.symm.trans hs
      exact hh

theorem adLockChecked_outcome (h : Wf f.lock) (hty : lock.lType = xlateFcntlLock mode)
    (h₀ : 0 ≤ lock.lStart) (hlen : 0 < lock.lLen)
    (hlast : adfLockLast lock.lStart lock.lLen ≤ lockTop) :
    Outcome env fork f (adLockChecked env t mode lock fork f).1
      (adLockChecked env t mode lock fork f).2 := by
  have stay : ∀ e, Outcome env fork f (.err e) f := fun e => .refused e f (.refl f) rfl
  have take : ∀ (_ : ¬ (lock.lType ≠ .unlck ∧
      (adfFindxlock f.lock fork (mode = .wr) true lock.lStart lock.lLen).isSome)),
      lock.lType ≠ .unlck → Take lock fork f.lock := by
    intro hx hne
    have hx := Option.not_isSome_iff_eq_none.mp fun hs => hx ⟨hne, hs⟩
    exact h.take hty hne h₀ hlen hlast hx
  have own : ∀ {i e}, adfFindlock f.lock fork true true lock.lStart lock.lLen = some i →
      f.lock[i]? = some e → ∃ hi : i < f.lock.length, f.lock[i] = e ∧ f.lock[i].user = fork := by
    intro i e hf hg
    obtain ⟨hi, hp, _⟩ := findWindow_some hf
    rw [getElem?_eq_getElem hi, Option.some.injEq] at hg
    rw [Bool.and_eq_true, decide_eq_true_eq] at hp
    exact ⟨hi, hg, hp.2⟩
  fun_cases adLockChecked env t mode lock fork f with
  | case3 _ _ _ f' hs | case8 _ _ _ _ _ _ _ f' hs =>
    obtain ⟨hsame, hheld⟩ := setLock_refused env hs
    exact .refused _ f' hsame hheld
  | case4 hx hf hun f' hs =>
    have ht := take hx hun
    exact recordLock_outcome env ht (h.take_compatible ht hf) hs
  | case7 hx i hf e hg =>
    obtain ⟨hi, _, huser⟩ := own hf hg
    exact .released i hi huser
  | case9 hx i hf e hg hbad hun f' hs =>
    obtain ⟨hi, rfl, huser⟩ := own hf hg
    simp only [not_or, not_not] at hbad
    exact .upgraded lock f' i hi (take hx hun) huser hbad.1.symm hbad.2.1.symm hs
  | _ => exact stay _

theorem adLockFd_outcome (t : Locktype) (off len fork : ℤ) (h : Wf f.lock) (hshift : 0 ≤ shift) :
    Outcome env fork f (adLockFd env t shift off len fork f).1
      (adLockFd env t shift off len fork f).2 := by
  have stay : ∀ e, Outcome env fork f (.err e) f := fun e => .refused e f (.refl f) rfl
  fun_cases adLockFd env t shift off len fork f with
  | case4 hoff mode start lock hlen hfits =>
    have h₀ : 0 ≤ lock.lStart := by
      change 0 ≤ off + shift
      omega
    refine adLockChecked_outcome env h rfl h₀ (not_le.mp hlen) ?_
    unfold adfLockFits at hfits
    rw [Bool.not_eq_false, decide_eq_true_eq] at hfits
    unfold adfLockLast
    omega
  | _ => exact stay _

/-! ### The array through a call -/

theorem setLock_granted (hs : setLock env lock f = (true, f')) :
    Same f f' ∧ (f.fd = .file →
      f'.held = f.held.set lock.lStart (adfLockLast lock.lStart lock.lLen) lock.lType.held) := by
  have hsame := setLock_same env lock f
  rw [hs] at hsame
  refine ⟨hsame, ?_⟩
  intro hfd
  rcases setLock_file env lock hfd with ⟨f₁, he, _, hh⟩ | ⟨f₁, he, _⟩
  · cases he.symm.trans hs
    exact hh
  · cases he.symm.trans hs

section entries
variable {arr : List AdfLock} (h : Wf arr) {lock : Flock} {fork : ℤ}
include h

theorem Wf.insertLock (ht : Take lock fork arr)
    (hc : ∀ e ∈ arr, (⟨lock, fork, 0⟩ : AdfLock).Compatible e) :
    adfLockReach (arr.insertIdx (adfLockLower arr lock.lStart false) ⟨lock, fork, 0⟩)
        (adfLockLower arr lock.lStart false) =
      reachLoop (-1) (arr.insertIdx (adfLockLower arr lock.lStart false) ⟨lock, fork, 0⟩) ∧
    Wf (adfLockReach (arr.insertIdx (adfLockLower arr lock.lStart false) ⟨lock, fork, 0⟩)
        (adfLockLower arr lock.lStart false)) := by
  apply h.insert (h.lower_le _ _) ht.ok
  · intro e he
    obtain ⟨j, hj, rfl⟩ := mem_take_iff_getElem.mp he
    have := (h.lt_lower_iff lock.lStart false (i := j) (by omega)).mp (by omega)
    exact this.le
  · intro e he
    obtain ⟨j, hj, rfl⟩ := mem_iff_getElem.mp he
    rw [length_drop] at hj
    rw [getElem_drop]
    have := mt (h.lt_lower_iff lock.lStart false
      (i := adfLockLower arr lock.lStart false + j) (by omega)).mpr (by omega)
    simp only [AdfLock.key, not_lt] at this
    exact this
  · exact hc

/-- An upgraded entry shares bytes with the other entries as the array allows. -/
theorem Wf.upgrade_compatible (ht : Take lock fork arr) (hi : i < arr.length)
    (hu : arr[i].user = fork) (hs : lock.lStart = arr[i].lock.lStart)
    (hl : lock.lLen = arr[i].lock.lLen) (j : ℕ) (hj : j < arr.length) (hji : j ≠ i) :
    ({ arr[i] with lock := lock } : AdfLock).Compatible arr[j] := by
  intro b hb hb'
  by_cases huj : arr[j].user = fork
  · -- the fork's own entries share no byte, whatever their types
    have hbi : arr[i].Covers b := by
      unfold AdfLock.Covers AdfLock.start AdfLock.last at hb ⊢
      rw [← hs, ← hl]
      exact hb
    exact absurd (hu.trans huj.symm) (h.compatible hi hj (Ne.symm hji) b hbi hb').1
  · have hsh := ht.shared arr[j] (getElem_mem hj) huj b hb hb'
    refine ⟨?_, hsh.2⟩
    rw [hu]
    exact hsh.1

end entries

theorem Outcome.wf (h : Wf f.lock) (ho : Outcome env fork f ret f') : Wf f'.lock := by
  cases ho with
  | refused e f' hs => exact hs.lock ▸ h
  | released i => exact adfFreelock_wf env h
  | upgraded lock f' i hi ht hu hst hln hs =>
    simp only [(setLock_granted env hs).1.lock]
    exact h.retype hi hst hln ht.ok.2.2.2 (h.upgrade_compatible ht hi hu hst hln)
  | recorded lock f' n m ht hc hs =>
    simp only [(setLock_granted env hs).1.lock]
    exact (h.insertLock ht hc).2
  | unrecorded lock f' m ht hc hs =>
    rw [(adfLockGaps_same env _ _).lock]
    exact (setLock_granted env hs).1.lock ▸ h

/-! ### The kernel's locks through a call -/

theorem Outcome.fd (ho : Outcome env fork f ret f') : f'.fd = f.fd := by
  cases ho with
  | refused e f' hs => exact hs.fd
  | released i => exact adfFreelock_fd env i f
  | upgraded lock f' i hi ht hu hst hln hs => exact (setLock_granted env hs).1.fd
  | recorded lock f' n m ht hc hs => exact (setLock_granted env hs).1.fd
  | unrecorded lock f' m ht hc hs =>
    exact (adfLockGaps_same env _ _).fd.trans (setLock_granted env hs).1.fd

theorem Take.state (ht : Take lock fork arr) :
    lock.lType.held = (⟨lock, fork, 0⟩ : AdfLock).span.state := by
  have hne := ht.ok.2.2.2
  unfold AdfLock.span Span.state
  cases hty : lock.lType with
  | rdlck | wrlck => rfl
  | unlck => exact absurd hty hne

section
variable (ht : Take lock fork f.lock) (hc : ∀ e ∈ f.lock, (⟨lock, fork, 0⟩ : AdfLock).Compatible e)
  (hs : setLock env lock f = (true, f')) (hfd : f.fd = .file) (hx : Exact f)
include ht hc hs hfd hx

/-- A granted take adds its range to the union. -/
theorem setLock_union : f'.held = unionMap ((⟨lock, fork, 0⟩ : AdfLock).span :: spans f.lock) := by
  rw [(setLock_granted env hs).2 hfd, hx, ht.state]
  exact set_unionMap (compatible_shares hc)

/-- Releasing what was taken for an entry that cannot be recorded restores the union. -/
theorem unrecorded_held (hu : env.Unlocks) (h : Wf f.lock) (m : ℕ) :
    (adfLockGaps env { lock with lType := .unlck } { f' with clock := m }).2.held = f.held := by
  have hsame := (setLock_granted env hs).1
  rcases adfLockGaps_spec env (f := { f' with clock := m }) (r := { lock with lType := .unlck })
    (hsame.fd.trans hfd) (hsame.lock ▸ h) hu ht.ok.admissible (AdfLock.start_le_last ht.ok) with
    ⟨f₁, he, _, hh⟩ | ⟨hty, _⟩
  · rw [he]
    simp only [setLock_union env ht hc hs hfd hx, hsame.lock] at hh
    rw [hh, hx]
    exact fill_free hc
  · exact absurd rfl hty

end

theorem Outcome.sound (hu : env.Unlocks) (h : Sound f) (ho : Outcome env fork f ret f') :
    Sound f' := by
  refine ⟨ho.wf env h.wf, ?_⟩
  intro hfd
  rw [ho.fd] at hfd
  have hx := h.exact hfd
  unfold Exact
  cases ho with
  | refused e f' hs hh => rw [hh, hs.lock, hx]
  | released i => exact adfFreelock_exact env h.wf hu hfd hx
  | upgraded lock f' i hi ht hui hst hln hs =>
    have hg := setLock_granted env hs
    have hlen : i < (f.lock.set i { f.lock[i] with lock := lock }).length := by
      rw [length_set]
      exact hi
    have hc := (h.wf.retype hi hst hln ht.ok.2.2.2
      (h.wf.upgrade_compatible ht hi hui hst hln)).compatible_erase hlen
    simp only [getElem_set_self, eraseIdx_set_eq] at hc
    simp only [hg.2 hfd, hg.1.lock]
    rw [hx, unionMap_eraseIdx hi, unionMap_eraseIdx hlen, ht.state]
    simp only [getElem_set_self, eraseIdx_set_eq]
    refine set_unionMap_cons hst ?_ (compatible_shares hc)
    unfold AdfLock.span AdfLock.last
    simp only [hst, hln]
  | recorded lock f' n m ht hc hs =>
    have hg := setLock_granted env hs
    unfold AdLock.insertLock
    simp only [hg.1.lock]
    rw [(h.wf.insertLock ht hc).1, spans_reachLoop, setLock_union env ht hc hs hfd hx]
    have hp := perm_insertIdx (⟨lock, fork, 0⟩ : AdfLock) f.lock
      (h.wf.lower_le lock.lStart false)
    exact unionMap_congr fun x => (hp.map AdfLock.span).symm.mem_iff
  | unrecorded lock f' m ht hc hs =>
    rw [unrecorded_held env ht hc hs hfd hx hu h.wf, (adfLockGaps_same env _ _).lock]
    simp only [(setLock_granted env hs).1.lock]
    exact hx

/-- A lock call that fails changes neither the array nor the kernel's locks. -/
theorem Outcome.restores (hu : env.Unlocks) (h : Sound f) (ho : Outcome env fork f (.err e) f') :
    Same f f' ∧ f'.held = f.held := by
  cases ho with
  | refused e f' hs hh => exact ⟨hs, hh⟩
  | unrecorded lock f' m ht hc hs =>
    have hg := (setLock_granted env hs).1
    have hsame : Same f { f' with clock := m } := { hg with }
    have hall := hsame.trans (adfLockGaps_same env { lock with lType := .unlck } _)
    refine ⟨hall, ?_⟩
    by_cases hfd : f.fd = .file
    · exact unrecorded_held env ht hc hs hfd (h.exact hfd) hu h.wf m
    · exact hall.held hfd

/-! ### Temporary locks -/

theorem adTmplockFd_same (t : Locktype) (shift off len fork : ℤ) (f : LockFile) :
    Same f (adTmplockFd env t shift off len fork f).2 := by
  have gaps : ∀ {r ok f'}, adfLockGaps env r f = (ok, f') → Same f f' := by
    intro r ok f' he
    have := adfLockGaps_same env r f
    rw [he] at this
    exact this
  fun_cases adTmplockFd env t shift off len fork f with
  | case4 hoff mode lock hfits hx f' he => exact gaps he
  | case5 hoff mode lock hfits hx f' he => exact gaps he
  | _ => exact .refl f

/-- A gap walk that fails leaves the kernel's locks the union of the entries. -/
theorem adfLockGaps_restores {r : Flock} (hu : env.Unlocks) (h : Wf f.lock) (hfd : f.fd = .file)
    (hx : Exact f) (hr : Admissible r.lStart r.lLen)
    (hle : r.lStart ≤ adfLockLast r.lStart r.lLen) (he : adfLockGaps env r f = (false, f')) :
    f'.held = f.held := by
  rcases adfLockGaps_spec env hfd h hu hr hle with ⟨f₁, he₁, _⟩ | ⟨_, d, f₁, he₁, _, hh⟩
  · rw [he₁] at he
    cases he
  · rw [he₁] at he
    cases he
    rw [hh]
    funext b
    by_cases hb : r.lStart - 1 < b ∧ b ≤ d ∧ ∀ e ∈ f.lock, ¬ e.Covers b
    · rw [fill_of hb.1 hb.2.1 hb.2.2, hx, (unionMap_free_iff _ _).mpr (covers_iff_span.mpr hb.2.2)]
    · rw [fill_not hb]

/-- A temporary lock that fails changes neither the array nor the kernel's locks. -/
theorem adTmplockFd_restores {off len : ℤ} (hu : env.Unlocks) (h : Sound f) (hshift : 0 ≤ shift)
    (he : (adTmplockFd env t shift off len fork f).1 = .err e) :
    (adTmplockFd env t shift off len fork f).2.held = f.held := by
  have hsame := adTmplockFd_same env t shift off len fork f
  by_cases hfd : f.fd = .file
  · revert he hsame
    fun_cases adTmplockFd env t shift off len fork f with
    | case4 => exact fun he _ => Ret.noConfusion he
    | case5 hoff mode lock hfits hx f' hg =>
      intro _ _
      have hstart : lock.lStart = off + shift := rfl
      have hlen : lock.lLen = len := rfl
      have hlast : lock.lStart ≤ adfLockLast lock.lStart lock.lLen ∧
          adfLockLast lock.lStart lock.lLen ≤ lockTop := by
        unfold adfLockFits at hfits
        rw [decide_eq_false_iff_not] at hfits
        unfold adfLockLast
        split_ifs <;> omega
      exact adfLockGaps_restores env hu h.wf hfd (h.exact hfd)
        ⟨by omega, by omega, hlast.2⟩ hlast.1 hg
    | _ => exact fun _ _ => rfl
  · exact hsame.held hfd

end Netatalk.AdLock
