import Netatalk.AdLockCall

/-! # Runs of lock calls on a file

Sequences of `ad_lock`, `ad_tmplock`, `ad_unlock` and `adf_lock_free` on the handle of one open
file.  Every call keeps the arrays of both forks well formed, whatever the kernel refuses and
whichever allocation fails (`call_wf`); when the kernel grants every release, every call but a
temporary lock keeps its locks the union of the recorded entries (`call_sound`), and a call that
fails leaves the arrays and the kernel's locks as they were. -/

namespace Netatalk.AdLock

variable (kernel : Eid → Env)

/-! ### The descriptor of a fork -/

variable {P : Eid → LockFile → Prop} {ad : Adouble} {f : LockFile}

/-- What holds of both descriptors, and of the one that replaces a fork's, holds of both after. -/
theorem Adouble.setAdf_all (h : ∀ eid, P eid (ad.adf eid)) {eid : Eid} (hf : P eid f) (eid' : Eid) :
    P eid' ((ad.setAdf eid f).adf eid') := by
  cases eid with
  | dfork =>
    cases eid' with
    | dfork => exact hf
    | rfork => exact h .rfork
  | rfork =>
    cases eid' with
    | dfork => exact h .dfork
    | rfork => exact hf

/-- The descriptor an `ad_lock` call selects. -/
theorem adLock_cases (eid : Eid) (t : Locktype) (off len fork : ℤ) :
    adLock kernel eid t off len fork ad = (.panic, ad) ∨
    ∃ eid' shift off', 0 ≤ shift ∧ adLock kernel eid t off len fork ad =
      ad.onAdf eid' (adLockFd (kernel eid') t shift off' len fork) := by
  fun_cases adLock kernel eid t off len fork ad with
  | case1 => exact .inl rfl
  | case2 => exact .inr ⟨.dfork, 0, off, le_refl 0, rfl⟩
  | case3 => exact .inr ⟨.dfork, 0, rf2off off, le_refl 0, rfl⟩
  | case4 => exact .inr ⟨.rfork, ad.rforkOff, off, ad.rforkOff_nonneg, rfl⟩

/-- The descriptor an `ad_tmplock` call selects. -/
theorem adTmplock_cases (eid : Eid) (t : Locktype) (off len fork : ℤ) :
    adTmplock kernel eid t off len fork ad = (.ok, ad) ∨
    ∃ eid' shift, 0 ≤ shift ∧ adTmplock kernel eid t off len fork ad =
      ad.onAdf eid' (adTmplockFd (kernel eid') t shift off len fork) := by
  fun_cases adTmplock kernel eid t off len fork ad with
  | case1 => exact .inr ⟨.dfork, 0, le_refl 0, rfl⟩
  | case2 => exact .inl rfl
  | case3 =>
    refine .inr ⟨.rfork, _, ?_, rfl⟩
    split_ifs
    · exact le_refl 0
    · exact ad.rforkOff_nonneg

/-- What `adf_unlock` keeps on a descriptor, `ad_unlock` keeps on both. -/
theorem adUnlock_all (h : ∀ eid, P eid (ad.adf eid))
    (fork : ℤ) (hP : ∀ eid f, P eid f → P eid (adfUnlock (kernel eid) fork f)) (eid : Eid) :
    P eid ((adUnlock kernel fork ad).adf eid) := by
  have h₁ : ∀ eid, P eid ((if ad.dataFork.fd ≠ .closed then
      ad.setAdf .dfork (adfUnlock (kernel .dfork) fork ad.dataFork) else ad).adf eid) := by
    split_ifs
    · exact Adouble.setAdf_all h (hP .dfork _ (h .dfork))
    · exact h
  unfold adUnlock
  generalize (if ad.dataFork.fd ≠ .closed then
    ad.setAdf .dfork (adfUnlock (kernel .dfork) fork ad.dataFork) else ad) = ad₁ at h₁ ⊢
  simp only
  split_ifs
  · exact Adouble.setAdf_all h₁ (hP .rfork _ (h₁ .rfork)) eid
  · exact h₁ eid

/-! ### One call -/

theorem call_wf (c : Call) (h : ∀ eid, Wf (ad.adf eid).lock) (eid : Eid) :
    Wf ((call kernel c ad).2.adf eid).lock := by
  cases c with
  | lock eid' t off len fork =>
    simp only [call]
    rcases adLock_cases kernel eid' t off len fork with he | ⟨e, shift, off', hs, he⟩
    · rw [he]
      exact h eid
    · rw [he]
      exact Adouble.setAdf_all (P := fun _ f => Wf f.lock) h
        ((adLockFd_outcome (kernel e) t off' len fork (h e) hs).wf _ (h e)) eid
  | tmplock eid' t off len fork =>
    simp only [call]
    rcases adTmplock_cases kernel eid' t off len fork with he | ⟨e, shift, hs, he⟩
    · rw [he]
      exact h eid
    · have hw : Wf (adTmplockFd (kernel e) t shift off len fork (ad.adf e)).2.lock := by
        rw [(adTmplockFd_same (kernel e) t shift off len fork (ad.adf e)).lock]
        exact h e
      rw [he]
      exact Adouble.setAdf_all (P := fun _ f => Wf f.lock) h hw eid
  | unlock fork =>
    exact adUnlock_all (P := fun _ f => Wf f.lock) kernel h fork
      (fun e f hf => adfUnlock_induct (P := fun f => Wf f.lock) (kernel e)
        (fun i f hf => adfFreelock_wf (kernel e) hf) hf) eid
  | lockFree eid' =>
    exact Adouble.setAdf_all (P := fun _ f => Wf f.lock) h
      (adfLockFree_wf (kernel eid') (h eid')) eid

/-- A call of `ad_tmplock`. -/
def Call.isTmplock : Call → Bool
  | .tmplock .. => true
  | _ => false

/-- Every call but a temporary lock keeps the kernel's locks the union of the entries. -/
theorem call_sound (hu : ∀ eid, (kernel eid).Unlocks) {c : Call} (hc : c.isTmplock = false)
    (h : ∀ eid, Sound (ad.adf eid)) (eid : Eid) :
    Sound ((call kernel c ad).2.adf eid) := by
  cases c with
  | lock eid' t off len fork =>
    simp only [call]
    rcases adLock_cases kernel eid' t off len fork with he | ⟨e, shift, off', hs, he⟩
    · rw [he]
      exact h eid
    · rw [he]
      exact Adouble.setAdf_all (P := fun _ f => Sound f) h
        ((adLockFd_outcome (kernel e) t off' len fork (h e).wf hs).sound _ (hu e) (h e)) eid
  | tmplock => cases hc
  | unlock fork =>
    exact adUnlock_all (P := fun _ f => Sound f) kernel h fork
      (fun e f hf =>
        adfUnlock_induct (kernel e) (adfFreelock_sound (kernel e) (hu e)) hf) eid
  | lockFree eid' =>
    exact Adouble.setAdf_all (P := fun _ f => Sound f) h
      (adfLockFree_sound (kernel eid') (hu eid') (h eid')) eid

/-! ### Whole runs -/

/-- What every call of a sequence keeps, the sequence keeps. -/
theorem run_induct {P : Adouble → Prop} (cs : List Call)
    (hP : ∀ c ∈ cs, ∀ ad, P ad → P (call kernel c ad).2) {ad' : Adouble} (h : P ad)
    (hr : run kernel cs ad = some ad') : P ad' := by
  induction cs generalizing ad with
  | nil =>
    cases hr
    exact h
  | cons c cs ih =>
    have hstep := hP c (by simp) ad h
    unfold run at hr
    split at hr
    · cases hr
    · rename_i ad₁ he
      rw [he] at hstep
      exact ih (fun c' hc' => hP c' (by simp [hc'])) hstep hr
    · rename_i e ad₁ he
      rw [he] at hstep
      exact ih (fun c' hc' => hP c' (by simp [hc'])) hstep hr

/-- Both descriptors as `adf_lock_init` leaves them. -/
def Adouble.Init (ad : Adouble) : Prop := ∀ eid, (ad.adf eid).lock = [] ∧ (ad.adf eid).lockmax = 0

/-- Through every sequence of lock calls, whatever the kernel and the allocator answer, the
arrays stay in order of start, with the greatest last byte so far as each entry's reach and with
bytes shared only by read locks of different forks. -/
theorem run_wellFormed (ad : Adouble) (hi : ad.Init) (cs : List Call) (ad' : Adouble)
    (hr : run kernel cs ad = some ad') (eid : Eid) : WellFormed (ad'.adf eid).lock := by
  have h₀ : ∀ eid, Wf (ad.adf eid).lock := by
    intro eid
    rw [(hi eid).1]
    exact wf_nil
  rw [wellFormed_iff]
  exact run_induct (P := fun ad => ∀ eid, Wf (ad.adf eid).lock) kernel cs
    (fun c _ ad h => call_wf kernel c h) h₀ hr eid

/-- A handle whose data fork is open for reading and writing and records nothing. -/
def openDataFork : Adouble where
  dataFork := ⟨.file, true, [], 0, .empty, 0⟩
  rfp := ⟨.closed, false, [], 0, .empty, 0⟩
  rforkOff := 0
  rforkOff_nonneg := le_refl 0
  rforkOff_le := by decide

theorem openDataFork_init : openDataFork.Init := by
  intro eid
  cases eid <;> exact ⟨rfl, rfl⟩

/-- A kernel and an allocator that refuse nothing. -/
def grantAll : Eid → Env := fun _ => ⟨fun _ _ => false, fun _ => false⟩

/-- Read locks of two forks over shared bytes, and the release of one of them. -/
def sharedReads : List Call :=
  [.lock .dfork ⟨.rd, false, false⟩ 0 10 1, .lock .dfork ⟨.rd, false, false⟩ 5 10 2, .unlock 1]

theorem run_wellFormed_sharedReads : ∃ ad', run grantAll sharedReads openDataFork = some ad' ∧
    WellFormed ad'.dataFork.lock := by
  obtain ⟨ad', h⟩ := Option.isSome_iff_exists.mp
    (show (run grantAll sharedReads openDataFork).isSome = true by decide)
  exact ⟨ad', h, run_wellFormed grantAll openDataFork openDataFork_init sharedReads ad' h .dfork⟩

/-- The kernel's locks of the process on a descriptor's file, byte by byte: write locked under a
write entry, read locked under read entries only, and free where no entry lies. -/
structure KernelAgrees (f : LockFile) : Prop where
  wr : ∀ b, f.held b = .wr ↔ ∃ e ∈ f.lock, e.Covers b ∧ e.lock.lType = .wrlck
  rd : ∀ b, f.held b = .rd ↔
    (∃ e ∈ f.lock, e.Covers b) ∧ ∀ e ∈ f.lock, e.Covers b → e.lock.lType = .rdlck
  free : ∀ b, f.held b = .free ↔ ∀ e ∈ f.lock, ¬ e.Covers b

theorem kernelAgrees_iff (h : Wf f.lock) : KernelAgrees f ↔ Exact f := by
  have hty : ∀ e ∈ f.lock, e.lock.lType = .rdlck ↔ ¬ e.lock.lType = .wrlck := by
    intro e he
    have := (h.ok e he).2.2.2
    cases hl : e.lock.lType <;> simp_all
  have hwr : ∀ b, unionMap (spans f.lock) b = .wr ↔
      ∃ e ∈ f.lock, e.Covers b ∧ e.lock.lType = .wrlck := by
    intro b
    rw [unionMap_wr_iff]
    simp [spans, AdfLock.span, Span.Covers, AdfLock.Covers]
  have hfree : ∀ b, unionMap (spans f.lock) b = .free ↔ ∀ e ∈ f.lock, ¬ e.Covers b := by
    intro b
    rw [unionMap_free_iff, covers_iff_span]
  constructor
  · intro ha
    funext b
    cases hb : f.held b with
    | wr => exact ((hwr b).mpr ((ha.wr b).mp hb)).symm
    | free => exact ((hfree b).mpr ((ha.free b).mp hb)).symm
    | rd =>
      obtain ⟨⟨e, he, hc⟩, hall⟩ := (ha.rd b).mp hb
      cases hu : unionMap (spans f.lock) b with
      | rd => rfl
      | free => exact absurd hc ((hfree b).mp hu e he)
      | wr =>
        obtain ⟨e', he', hc', hw'⟩ := (hwr b).mp hu
        exact absurd hw' ((hty e' he').mp (hall e' he' hc'))
  · intro hx
    refine ⟨fun b => by rw [hx, hwr], fun b => ?_, fun b => by rw [hx, hfree]⟩
    rw [hx, unionMap_rd_iff]
    simp only [spans, List.mem_map, exists_exists_and_eq_and, forall_exists_index, and_imp,
      forall_apply_eq_imp_iff₂, AdfLock.span, Span.Covers, AdfLock.Covers, decide_eq_false_iff_not]
    refine and_congr_right fun _ => forall_congr' fun e => forall_congr' fun he => ?_
    rw [hty e he]

/-- Releasing entry `i` frees exactly its bytes that no surviving entry covers. -/
def FreesOwnBytes (env : Env) (f : LockFile) : Prop :=
  ∀ i (hi : i < f.lock.length) (b : ℤ), (adfFreelock env i f).held b =
    if f.lock[i].Covers b ∧ ∀ e ∈ f.lock.eraseIdx i, ¬ e.Covers b then .free else f.held b

theorem freesOwnBytes {env : Env} (h : Wf f.lock) (hu : env.Unlocks)
    (hfd : f.fd = .file) : FreesOwnBytes env f := by
  intro i hi b
  rw [adfFreelock_held env h hu hfd hi, adfFreelock_lock env h hi]
  refine if_congr ?_ rfl rfl
  rw [← covers_iff_span, spans_reachLoop, covers_iff_span, ← and_assoc]
  refine and_congr_left fun _ => ?_
  unfold AdfLock.Covers
  omega

/-- Through every sequence of calls that takes no temporary lock, on a kernel that grants every
release, the process's locks on an open file are the byte-wise union of the recorded entries,
and releasing an entry frees exactly its bytes that no other entry covers. -/
theorem run_kernelAgrees (hu : ∀ eid, (kernel eid).Unlocks) (ad : Adouble) (hi : ad.Init)
    (hk : ∀ eid, (ad.adf eid).held = .empty) (cs : List Call) (hc : ∀ c ∈ cs, c.isTmplock = false)
    (ad' : Adouble) (hr : run kernel cs ad = some ad') (eid : Eid) (hfd : (ad'.adf eid).fd = .file)
    : KernelAgrees (ad'.adf eid) ∧ FreesOwnBytes (kernel eid) (ad'.adf eid) := by
  have h₀ : ∀ eid, Sound (ad.adf eid) := by
    intro eid
    refine ⟨by rw [(hi eid).1]; exact wf_nil, fun _ => ?_⟩
    unfold Exact
    rw [(hi eid).1, hk eid]
    exact unionMap_nil.symm
  have h := run_induct (P := fun ad => ∀ eid, Sound (ad.adf eid)) kernel cs
    (fun c hcs ad h => call_sound kernel hu (hc c hcs) h) h₀ hr eid
  exact ⟨(kernelAgrees_iff h.wf).mpr (h.exact hfd), freesOwnBytes h.wf (hu eid) hfd⟩

theorem run_kernelAgrees_sharedReads : ∃ ad', run grantAll sharedReads openDataFork = some ad' ∧
    KernelAgrees ad'.dataFork ∧ FreesOwnBytes (grantAll .dfork) ad'.dataFork := by
  obtain ⟨ad', h, hfd⟩ : ∃ ad', run grantAll sharedReads openDataFork = some ad' ∧
      ad'.dataFork.fd = .file := by
    have hs : ((run grantAll sharedReads openDataFork).map fun ad => ad.dataFork.fd) =
        some .file := by
      decide
    obtain ⟨ad', h, hfd⟩ := Option.map_eq_some_iff.mp hs
    exact ⟨ad', h, hfd⟩
  exact ⟨ad', h, run_kernelAgrees grantAll (fun _ _ _ _ => rfl) openDataFork openDataFork_init
    (fun eid => by cases eid <;> rfl) sharedReads (by decide) ad' h .dfork hfd⟩

/-! ### Failed calls -/

/-- Neither the array of a fork nor the kernel's locks on its file have changed. -/
def Unchanged (ad ad' : Adouble) : Prop :=
  ∀ eid, (ad'.adf eid).lock = (ad.adf eid).lock ∧ (ad'.adf eid).lockmax = (ad.adf eid).lockmax ∧
    (ad'.adf eid).held = (ad.adf eid).held

/-- From well-formed arrays that the kernel's locks agree with, a call of `ad_lock` or
`ad_tmplock` that fails, at whichever request or allocation, changes nothing. -/
theorem failed_unchanged (hu : ∀ eid, (kernel eid).Unlocks) (ad : Adouble)
    (hwf : ∀ eid, WellFormed (ad.adf eid).lock)
    (hk : ∀ eid, (ad.adf eid).fd = .file → KernelAgrees (ad.adf eid)) (eid : Eid) (t : Locktype)
    (off len fork : ℤ) (e : Errno) : ((adLock kernel eid t off len fork ad).1 = .err e →
      Unchanged ad (adLock kernel eid t off len fork ad).2) ∧
    ((adTmplock kernel eid t off len fork ad).1 = .err e →
      Unchanged ad (adTmplock kernel eid t off len fork ad).2) := by
  have hwf' : ∀ eid, Wf (ad.adf eid).lock := fun eid => wellFormed_iff.mp (hwf eid)
  have h : ∀ eid, Sound (ad.adf eid) := fun eid =>
    ⟨hwf' eid, fun hfd => (kernelAgrees_iff (hwf' eid)).mp (hk eid hfd)⟩
  have one : ∀ {eid f}, Same (ad.adf eid) f → f.held = (ad.adf eid).held →
      Unchanged ad (ad.setAdf eid f) := by
    intro eid f hs hh
    exact Adouble.setAdf_all (P := fun eid f => f.lock = (ad.adf eid).lock ∧
      f.lockmax = (ad.adf eid).lockmax ∧ f.held = (ad.adf eid).held) (fun _ => ⟨rfl, rfl, rfl⟩)
      ⟨hs.lock, hs.lockmax, hh⟩
  constructor
  · rcases adLock_cases kernel eid t off len fork with he | ⟨eid', shift, off', hs, he⟩
    · rw [he]
      rintro ⟨⟩
    · rw [he]
      intro herr
      have ho := adLockFd_outcome (kernel eid') t off' len fork
        (h eid').wf hs
      rw [show (adLockFd (kernel eid') t shift off' len fork (ad.adf eid')).1 = .err e
        from herr] at ho
      obtain ⟨hsame, hheld⟩ := ho.restores _ (hu eid') (h eid')
      exact one hsame hheld
  · rcases adTmplock_cases kernel eid t off len fork with he | ⟨eid', shift, hs, he⟩
    · rw [he]
      rintro ⟨⟩
    · rw [he]
      intro herr
      exact one (adTmplockFd_same (kernel eid') t shift off len fork (ad.adf eid'))
        (adTmplockFd_restores (kernel eid') (hu eid') (h eid') hs herr)

/-- A data fork with a read entry over bytes 5 to 9 that the kernel holds as such, in an array
that is full. -/
def readEntry : Adouble :=
  let arr : List AdfLock := [⟨⟨.rdlck, 5, 5⟩, 2, 9⟩]
  { openDataFork with dataFork := ⟨.file, true, arr, 1, unionMap (spans arr), 0⟩ }

theorem readEntry_wf : ∀ eid, Wf (readEntry.adf eid).lock := by
  intro eid
  cases eid with
  | dfork =>
    refine ⟨?_, List.pairwise_singleton _ _, rfl, List.pairwise_singleton _ _⟩
    intro e he
    rw [List.mem_singleton.mp he]
    unfold AdfLock.Ok
    decide
  | rfork => exact wf_nil

theorem readEntry_agrees (eid : Eid) (h : (readEntry.adf eid).fd = .file) :
    KernelAgrees (readEntry.adf eid) := by
  rw [kernelAgrees_iff (readEntry_wf eid)]
  cases eid with
  | dfork => rfl
  | rfork => cases h

/-- A kernel that refuses the second request of a call that it is not asked to release, and an
allocator that fails. -/
def refuseSecond : Eid → Env := fun _ => ⟨fun n r => n = 1 && r.lType ≠ .unlck, fun _ => true⟩

/-- A temporary lock over both sides of the entry is refused behind it, and a lock over bytes 20
to 29 finds no room in the array: both calls fail and change nothing. -/
theorem failed_unchanged_readEntry :
    ((adTmplock refuseSecond .dfork ⟨.rd, false, false⟩ 0 20 2 readEntry).1 = .err .fcntl ∧
      Unchanged readEntry (adTmplock refuseSecond .dfork ⟨.rd, false, false⟩ 0 20 2 readEntry).2) ∧
    ((adLock refuseSecond .dfork ⟨.wr, false, false⟩ 20 10 2 readEntry).1 = .err .enomem ∧
      Unchanged readEntry
        (adLock refuseSecond .dfork ⟨.wr, false, false⟩ 20 10 2 readEntry).2) := by
  have hu : ∀ eid, (refuseSecond eid).Unlocks := by
    intro eid n r hr
    simp [refuseSecond, hr]
  have hwf : ∀ eid, WellFormed (readEntry.adf eid).lock := fun eid =>
    wellFormed_iff.mpr (readEntry_wf eid)
  have h₁ : (adTmplock refuseSecond .dfork ⟨.rd, false, false⟩ 0 20 2 readEntry).1 =
      .err .fcntl := by
    decide
  have h₂ : (adLock refuseSecond .dfork ⟨.wr, false, false⟩ 20 10 2 readEntry).1 =
      .err .enomem := by
    decide
  exact ⟨⟨h₁, (failed_unchanged refuseSecond hu readEntry hwf readEntry_agrees _ _ _ _ _ _).2 h₁⟩,
    ⟨h₂, (failed_unchanged refuseSecond hu readEntry hwf readEntry_agrees _ _ _ _ _ _).1 h₂⟩⟩

end Netatalk.AdLock
