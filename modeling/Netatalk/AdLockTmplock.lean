import Netatalk.AdLockRun

/-! # A temporary lock and its release

`ad_tmplock` takes its lock on the stretches of a range that no entry covers, and the call with
`ADLOCK_CLR` walks the same stretches again.  `gapRequests` lists the `F_SETLK` requests of a walk
in their order, so that the kernel's locks are known after each of them and not only at the
return: a walk that succeeds has made exactly these (`adfLockGaps_requests`), and none of them
reaches a byte of an entry (`gapRequests_uncovered`). -/

namespace Netatalk.AdLock

open List

variable (env : Env)

/-! ### The requests of a walk -/

/-- The request for the bytes `done + 1..stop`, when there are any. -/
def stretchRequest (ty : FType) (done stop : ℤ) : List Flock :=
  if stop > done then [⟨ty, done + 1, if stop < lockTop then stop - done else 0⟩] else []

/-- The requests of a walk that is refused none. -/
def loopRequests (ty : FType) (last : ℤ) : List AdfLock → ℤ → List Flock
  | [], done => if done < last then stretchRequest ty done last else []
  | e :: es, done =>
    if done < last then
      stretchRequest ty done (e.start - 1) ++
        loopRequests ty last es (if e.reach > done then e.reach else done)
    else []

/-- The requests of `adf_lock_gaps` over a lock array. -/
def gapRequests (arr : List AdfLock) (r : Flock) : List Flock :=
  let w := adfLockWindow arr r.lStart r.lLen
  loopRequests r.lType (adfLockLast r.lStart r.lLen) ((arr.drop w.1).take (w.2 - w.1))
    (r.lStart - 1)

/-- The kernel's locks after it has granted the requests. -/
def grants (K : LockMap) (rs : List Flock) : LockMap :=
  rs.foldl (fun K r => K.set r.lStart (adfLockLast r.lStart r.lLen) r.lType.held) K

theorem grants_append (K : LockMap) (rs rs' : List Flock) :
    grants K (rs ++ rs') = grants (grants K rs) rs' := foldl_append

variable {b done fork last len off shift stop : ℤ} {e : AdfLock} {f' f₁ : LockFile} {q : Flock}
  {t : Locktype} {ty : FType} {undo : ℤ → LockFile → LockFile}

/-- A byte outside every request keeps its state. -/
theorem grants_out : ∀ (rs : List Flock) (K : LockMap),
    (∀ r ∈ rs, ¬ (r.lStart ≤ b ∧ b ≤ adfLockLast r.lStart r.lLen)) → grants K rs b = K b
  | [], _, _ => rfl
  | r :: rs, K, h => by
    have hr := h r (by simp)
    change grants (K.set _ _ _) rs b = K b
    rw [grants_out rs _ fun r' hr' => h r' (by simp [hr']), LockMap.set_out _ _ (by omega)]

variable {f : LockFile}

theorem gapStretch_granted {r : Flock} (hfd : f.fd = .file)
    (h : gapStretch env r done stop f = (true, f')) :
    f'.held = grants f.held (stretchRequest r.lType done stop) := by
  unfold gapStretch at h
  unfold stretchRequest
  by_cases hgap : stop > done
  · rw [if_pos hgap] at h ⊢
    exact (setLock_granted env h).2 hfd
  · rw [if_neg hgap] at h ⊢
    cases h
    rfl

section
variable {r : Flock} (es : List AdfLock) (done : ℤ) (ret : Bool) (f : LockFile)

/-- A release that failed on a stretch is not forgotten. -/
theorem gapsLoop_failed (hret : ret = false) :
    (gapsLoop env r last undo es done ret f).1 = false := by
  fun_induction gapsLoop env r last undo es done ret f with
  | case2 | case3 | case6 => rfl
  | case5 e es done ret f hd next f₁ he ih => exact ih hret
  | case7 e es done ret f hd next f₁ he hty ih => exact ih rfl
  | _ => exact hret

/-- A walk that succeeds has been granted each of its requests, in order. -/
theorem gapsLoop_requests (hfd : f.fd = .file)
    (h : gapsLoop env r last undo es done ret f = (true, f')) :
    f'.held = grants f.held (loopRequests r.lType last es done) := by
  fun_induction gapsLoop env r last undo es done ret f with
  | case1 done ret f hd f₁ he =>
    cases h
    rw [loopRequests, if_pos hd]
    exact gapStretch_granted env hfd he
  | case4 done ret f hd | case8 e es done ret f hd =>
    cases h
    rw [loopRequests, if_neg hd]
    rfl
  | case5 e es done ret f hd next f₁ he ih =>
    have hs := gapStretch_same env r done (e.start - 1) f
    rw [he] at hs
    rw [loopRequests, if_pos hd, grants_append, ← gapStretch_granted env hfd he]
    exact ih (hs.fd.trans hfd) h
  | case7 e es done ret f hd next f₁ =>
    have hfalse : (gapsLoop env r last undo es next false f₁).1 = false :=
      gapsLoop_failed env es next false f₁ rfl
    rw [h] at hfalse
    cases hfalse
  | _ => cases h

end

theorem stretchRequest_bytes (hstop : stop ≤ lockTop) (hq : q ∈ stretchRequest ty done stop)
    (h₁ : q.lStart ≤ b) (h₂ : b ≤ adfLockLast q.lStart q.lLen) : done < b ∧ b ≤ stop := by
  unfold stretchRequest at hq
  by_cases hgap : stop > done
  · rw [if_pos hgap, mem_singleton] at hq
    subst hq
    unfold adfLockLast at h₂
    dsimp only at h₁ h₂
    split_ifs at h₂ <;> omega
  · rw [if_neg hgap] at hq
    cases hq

/-- The requests of a walk lie in the range, behind `done`, and off the entries it meets. -/
theorem loopRequests_uncovered (hlast : last ≤ lockTop) (es : List AdfLock)
    (hes : Walk last done es) (hq : q ∈ loopRequests ty last es done) (h₁ : q.lStart ≤ b)
    (h₂ : b ≤ adfLockLast q.lStart q.lLen) : done < b ∧ b ≤ last ∧ ∀ e ∈ es, ¬ e.Covers b := by
  induction es generalizing done with
  | nil =>
    by_cases hd : done < last
    · rw [loopRequests, if_pos hd] at hq
      obtain ⟨h₃, h₄⟩ := stretchRequest_bytes hlast hq h₁ h₂
      exact ⟨h₃, h₄, by simp⟩
    · rw [loopRequests, if_neg hd] at hq
      cases hq
  | cons e es ih =>
    have hstart := hes.start_le e (by simp)
    have hsort := (pairwise_cons.mp hes.sorted).1
    by_cases hd : done < last
    · rw [loopRequests, if_pos hd, hes.next] at hq
      rcases mem_append.mp hq with hq | hq
      · -- the stretch ends in front of this entry and so of every later one
        obtain ⟨h₃, h₄⟩ := stretchRequest_bytes (by omega) hq h₁ h₂
        refine ⟨h₃, by omega, ?_⟩
        intro e' he' hc
        have hle := hc.1
        rcases mem_cons.mp he' with rfl | he'
        · omega
        · have := hsort e' he'
          omega
      · obtain ⟨h₃, h₄, h₅⟩ := ih hes.tail hq
        rw [max_lt_iff] at h₃
        refine ⟨h₃.1, h₄, ?_⟩
        intro e' he' hc
        rcases mem_cons.mp he' with rfl | he'
        · have := hc.2
          omega
        · exact h₅ e' he' hc
    · rw [loopRequests, if_neg hd] at hq
      cases hq

section array
variable {f : LockFile} (h : Wf f.lock) {r : Flock} (hle : r.lStart ≤ adfLockLast r.lStart r.lLen)
include h hle

/-- No request reaches a byte of an entry. -/
theorem gapRequests_uncovered (hr : Admissible r.lStart r.lLen) (hq : q ∈ gapRequests f.lock r)
    (he : e ∈ f.lock) (hb : e.Covers b) : ¬ (q.lStart ≤ b ∧ b ≤ adfLockLast q.lStart q.lLen) := by
  rintro ⟨h₁, h₂⟩
  obtain ⟨h₃, h₄, h₅⟩ := loopRequests_uncovered hr.last_le _ (h.walk hr hle) hq h₁ h₂
  exact (h.uncovered_window r.lStart r.lLen (by omega) h₄).mp h₅ e he hb

theorem adfLockGaps_requests (hfd : f.fd = .file) (hg : adfLockGaps env r f = (true, f')) :
    f'.held = grants f.held (gapRequests f.lock r) := by
  unfold adfLockGaps walkGaps at hg
  rw [if_pos (h.window_le hle)] at hg
  exact gapsLoop_requests env _ _ _ _ hfd hg

end array

/-! ### One descriptor -/

/-- The range `ad_tmplock` asks the gap walk for. -/
def tmplockRange (t : Locktype) (start len : ℤ) (f : LockFile) : Flock :=
  ⟨xlateFcntlLock (f.degrade t.mode), start, len⟩

/-- The lock type of the call that releases a temporary lock. -/
def Locktype.cleared (t : Locktype) : Locktype := { t with mode := .clr }

theorem degrade_clr : f.degrade .clr = .clr := by
  unfold LockFile.degrade
  rw [if_neg]
  rintro ⟨_, hm⟩
  cases hm

/-- A call that succeeds has an admissible range and a walk that succeeds. -/
theorem adTmplockFd_ok (hshift : 0 ≤ shift)
    (hok : (adTmplockFd env t shift off len fork f).1 = .ok) :
    Admissible (off + shift) len ∧ off + shift ≤ adfLockLast (off + shift) len ∧
      adfLockGaps env (tmplockRange t (off + shift) len f) f =
        (true, (adTmplockFd env t shift off len fork f).2) := by
  revert hok
  fun_cases adTmplockFd env t shift off len fork f with
  | case4 hoff mode lock hfits hx f' hg =>
    intro _
    have hstart : lock.lStart = off + shift := rfl
    unfold adfLockFits at hfits
    rw [decide_eq_false_iff_not] at hfits
    refine ⟨⟨by omega, by omega, ?_⟩, ?_, hg⟩
    · unfold adfLockLast
      split_ifs <;> omega
    · unfold adfLockLast
      split_ifs <;> omega
  | _ => exact fun hok => Ret.noConfusion hok

/-- The release walks the range of a call that succeeded. -/
theorem adTmplockFd_cleared (hok : (adTmplockFd env t shift off len fork f).1 = .ok) :
    (adTmplockFd env t.cleared shift off len fork f₁).2 =
      (adfLockGaps env (tmplockRange t.cleared (off + shift) len f₁) f₁).2 := by
  have hclr : xlateFcntlLock (f₁.degrade t.cleared.mode) = .unlck := by
    rw [show t.cleared.mode = .clr from rfl, degrade_clr]
    rfl
  revert hok
  fun_cases adTmplockFd env t shift off len fork f with
  | case4 hoff mode lock hfits =>
    intro _
    unfold adTmplockFd tmplockRange
    rw [if_neg hoff, if_neg hfits, if_neg (fun hc => hc.2.1 hclr)]
    rcases adfLockGaps env ⟨xlateFcntlLock (f₁.degrade t.cleared.mode), off + shift, len⟩ f₁ with
      ⟨_ | _, f₂⟩ <;> rfl
  | _ => exact fun hok => Ret.noConfusion hok

/-- The kernel's locks on a descriptor's file after requests that were granted. -/
def LockFile.after (f : LockFile) (rs : List Flock) : LockMap :=
  if f.fd = .file then grants f.held rs else f.held

/-- The requests of a temporary lock, then those of its release. -/
def pairRequests (t : Locktype) (start len : ℤ) (f : LockFile) : List Flock × List Flock :=
  (gapRequests f.lock (tmplockRange t start len f),
    gapRequests f.lock (tmplockRange t.cleared start len f))

/-- What a temporary lock and its release do to a descriptor's file: the array stays, after each
request on the way every byte of an entry has the lock it had, and the kernel's locks are those
of before exactly if it held none on the bytes `gap` that the two walks reach. -/
structure Framed (f f₁ f₂ : LockFile) (take release : List Flock) (gap : ℤ → Prop) : Prop where
  lock : f₂.lock = f.lock
  taken : f₁.held = f.after take
  released : f₂.held = f.after (take ++ release)
  between : ∀ n, ∀ e ∈ f.lock, ∀ b, e.Covers b → f.after ((take ++ release).take n) b = f.held b
  restored : f₂.held = f.held ↔ ∀ b, gap b → f.held b = .free

/-- The kernel holds at least what an entry records. -/
theorem KernelAgrees.atLeast (hk : KernelAgrees f) (hwf : Wf f.lock) (he : e ∈ f.lock)
    (hb : e.Covers b) : f.held b = e.lock.lType.held ∨ f.held b = .wr := by
  cases hty : e.lock.lType with
  | unlck => exact absurd hty (hwf.ok e he).2.2.2
  | wrlck => exact .inr ((hk.wr b).mpr ⟨e, he, hb, hty⟩)
  | rdlck =>
    cases hh : f.held b with
    | free => exact absurd hb ((hk.free b).mp hh e he)
    | rd => exact .inl rfl
    | wr => exact .inr rfl

/-- The bytes of a range on an open file that no entry covers. -/
def LockFile.Gap (f : LockFile) (start len b : ℤ) : Prop :=
  f.fd = .file ∧ start ≤ b ∧ b ≤ adfLockLast start len ∧ ∀ e ∈ f.lock, ¬ e.Covers b

theorem adTmplockFd_framed (hu : env.Unlocks) (hwf : Wf f.lock) (hfd : f.fd = .file)
    (hshift : 0 ≤ shift) (hok : (adTmplockFd env t shift off len fork f).1 = .ok) :
    Framed f (adTmplockFd env t shift off len fork f).2
      (adTmplockFd env t.cleared shift off len fork (adTmplockFd env t shift off len fork f).2).2
      (pairRequests t (off + shift) len f).1 (pairRequests t (off + shift) len f).2
      (f.Gap (off + shift) len) := by
  obtain ⟨hr, hle, hg⟩ := adTmplockFd_ok env hshift hok
  have hs := adTmplockFd_same env t shift off len fork f
  rw [adTmplockFd_cleared env hok]
  generalize (adTmplockFd env t shift off len fork f).2 = f₁ at hg hs ⊢
  have hfd₁ := hs.fd.trans hfd
  have hwf₁ : Wf f₁.lock := hs.lock ▸ hwf
  have hrange : tmplockRange t.cleared (off + shift) len f₁ =
      tmplockRange t.cleared (off + shift) len f := by
    unfold tmplockRange
    rw [show t.cleared.mode = .clr from rfl, degrade_clr, degrade_clr]
  have hty : (tmplockRange t.cleared (off + shift) len f₁).lType = .unlck := by
    unfold tmplockRange
    rw [show t.cleared.mode = .clr from rfl, degrade_clr]
    rfl
  have hreq₁ := adfLockGaps_requests env hwf hle hfd hg
  -- the take succeeded, so both walks fill the gaps of the range
  rcases adfLockGaps_spec env hfd hwf hu (r := tmplockRange t (off + shift) len f) hr hle with
    ⟨f', hg', _, hh₁⟩ | ⟨_, _, f', hg', _⟩
  swap
  · rw [hg] at hg'
    cases hg'
  rw [hg] at hg'
  cases hg'
  rcases adfLockGaps_spec env hfd₁ hwf₁ hu (r := tmplockRange t.cleared (off + shift) len f₁)
    hr hle with ⟨f₂, hg₂, hs₂, hh₂⟩ | ⟨hno, _⟩
  swap
  · exact absurd hty hno
  have hreq₂ := adfLockGaps_requests env hwf₁ hle hfd₁ hg₂
  rw [hg₂]
  rw [hs.lock, hrange, hreq₁] at hreq₂
  have hafter : ∀ rs, f.after rs = grants f.held rs := fun rs => if_pos hfd
  refine ⟨hs₂.lock.trans hs.lock, by rw [hafter]; exact hreq₁,
    by rw [hafter, grants_append]; exact hreq₂, ?_, ?_⟩
  · intro n e he b hb
    rw [hafter, grants_out]
    intro q hq
    rcases mem_append.mp (mem_of_mem_take hq) with hq | hq <;>
      exact gapRequests_uncovered hwf hle hr hq he hb
  · rw [hty] at hh₂
    rw [funext_iff]
    refine forall_congr' fun b => ?_
    rw [hh₂, hs.lock]
    by_cases hb : f.Gap (off + shift) len b
    · have hfree : fill f₁.held (off + shift - 1) (adfLockLast (off + shift) len) f.lock .free b =
          .free := fill_of (by have := hb.2.1; omega) hb.2.2.1 hb.2.2.2
      exact ⟨fun h _ => h.symm.trans hfree, fun h => hfree.trans (h hb).symm⟩
    · have hb' : ¬ (off + shift - 1 < b ∧ b ≤ adfLockLast (off + shift) len ∧
          ∀ e ∈ f.lock, ¬ e.Covers b) := by
        rintro ⟨h₁, h₂⟩
        exact hb ⟨hfd, by omega, h₂⟩
      rw [hh₁]
      exact iff_of_true ((fill_not hb').trans (fill_not hb')) fun h => absurd h hb

theorem Framed.of_same {f₂ : LockFile} (h₁ : Same f f₁) (h₂ : Same f₁ f₂)
    {take release : List Flock} (hfd : f.fd ≠ .file) {gap : ℤ → Prop} (hgap : ∀ b, ¬ gap b) :
    Framed f f₁ f₂ take release gap := by
  have hafter : ∀ rs, f.after rs = f.held := fun rs => if_neg hfd
  have h := h₁.trans h₂
  refine ⟨h.lock, by rw [hafter, h₁.held hfd], by rw [hafter, h.held hfd], ?_, ?_⟩
  · intro n e he b hb
    rw [hafter]
  · exact iff_of_true (h.held hfd) fun b hb => absurd hb (hgap b)

theorem Framed.refl (f : LockFile) {P : ℤ → Prop} (hgap : ∀ b, ¬ P b) : Framed f f f [] [] P := by
  have hafter : f.after [] = f.held := by
    exact ite_self _
  refine ⟨rfl, hafter.symm, hafter.symm, ?_, ?_⟩
  · intro n e he b hb
    rw [append_nil, take_nil, hafter]
  · exact iff_of_true rfl fun b hb => absurd hb (hgap b)

/-! ### The call -/

section call
variable (kernel : Eid → Env)

/-- The entry offset `ad_tmplock` adds. -/
def Adouble.tmplockShift (ad : Adouble) (eid : Eid) (t : Locktype) : ℤ :=
  match eid with
  | .dfork => 0
  | .rfork => if t.filelock then 0 else ad.rforkOff

theorem Adouble.tmplockShift_nonneg (ad : Adouble) (eid : Eid) : 0 ≤ ad.tmplockShift eid t := by
  cases eid with
  | dfork => exact le_refl 0
  | rfork =>
    unfold tmplockShift
    split_ifs
    · exact le_refl 0
    · exact ad.rforkOff_nonneg

/-- The requests of a temporary lock and of its release on a fork's file. -/
def Adouble.pairRequests (ad : Adouble) (eid : Eid) (t : Locktype) (off len : ℤ) (e : Eid) :
    List Flock × List Flock :=
  if e = eid then AdLock.pairRequests t (off + ad.tmplockShift eid t) len (ad.adf e) else ([], [])

theorem adTmplock_eq (eid : Eid) (ad : Adouble) : adTmplock kernel eid t off len fork ad =
      if eid = .rfork ∧ ad.rfp.fd = .closed then (.ok, ad)
      else ad.onAdf eid (adTmplockFd (kernel eid) t (ad.tmplockShift eid t) off len fork) := by
  cases eid with
  | dfork =>
    rfl
  | rfork =>
    simp only [true_and]
    rfl

/-- On a kernel that grants every release, a temporary lock that succeeds and the release of its
range leave both arrays as they were, and each byte of an entry keeps its lock through every
request.  Where the kernel's locks agreed with the entries, they are as they were in the end, and
no byte of an entry ever has a weaker lock than the entry records. -/
theorem adTmplock_cleared_framed (hu : ∀ eid, (kernel eid).Unlocks) (ad : Adouble)
    (hwf : ∀ eid, WellFormed (ad.adf eid).lock) (eid : Eid) (t : Locktype) (off len fork : ℤ)
    (hok : (adTmplock kernel eid t off len fork ad).1 = .ok) (e : Eid) :
    Framed (ad.adf e) ((adTmplock kernel eid t off len fork ad).2.adf e)
      ((adTmplock kernel eid t.cleared off len fork
        (adTmplock kernel eid t off len fork ad).2).2.adf e)
      (ad.pairRequests eid t off len e).1 (ad.pairRequests eid t off len e).2
      (fun b => e = eid ∧ (ad.adf e).Gap (off + ad.tmplockShift eid t) len b) ∧
    (KernelAgrees (ad.adf e) →
      ((adTmplock kernel eid t.cleared off len fork
        (adTmplock kernel eid t off len fork ad).2).2.adf e).held = (ad.adf e).held ∧
      ∀ n, ∀ l ∈ (ad.adf e).lock, ∀ b, l.Covers b →
        (ad.adf e).after (((ad.pairRequests eid t off len e).1 ++
          (ad.pairRequests eid t off len e).2).take n) b ∈ [l.lock.lType.held, .wr]) := by
  have hwf' : ∀ eid, Wf (ad.adf eid).lock := fun eid => wellFormed_iff.mp (hwf eid)
  refine (fun hf => ⟨hf, fun hk => ⟨hf.restored.mpr ?_, ?_⟩⟩) ?_
  rotate_left
  · intro b hb
    exact (hk.free b).mpr hb.2.2.2.2
  · intro n l hl b hb
    rw [hf.between n l hl b hb]
    simpa using hk.atLeast (hwf' e) hl hb
  rw [adTmplock_eq] at hok ⊢
  by_cases hc : eid = .rfork ∧ ad.rfp.fd = .closed
  · -- there is no resource fork: neither call does anything
    rw [if_pos hc, adTmplock_eq, if_pos hc]
    unfold Adouble.pairRequests
    by_cases he : e = eid
    · have hfd : (ad.adf e).fd ≠ .file := by
        rw [he, hc.1]
        exact fun hf => Fd.noConfusion (hc.2.symm.trans hf)
      exact Framed.of_same (Same.refl _) (Same.refl _) hfd fun b hb => hfd hb.2.1
    · rw [if_neg he]
      exact Framed.refl _ fun b hb => he hb.1
  · rw [if_neg hc] at hok ⊢
    have hs := adTmplockFd_same (kernel eid) t (ad.tmplockShift eid t) off len fork (ad.adf eid)
    have hrfp : ¬ (eid = .rfork ∧
        (ad.onAdf eid (adTmplockFd (kernel eid) t (ad.tmplockShift eid t) off len fork)).2.rfp.fd =
          .closed) := by
      rintro ⟨rfl, hcl⟩
      exact hc ⟨rfl, hs.fd.symm.trans hcl⟩
    rw [adTmplock_eq, if_neg hrfp]
    by_cases he : e = eid
    · subst he
      simp only [true_and]
      by_cases hfd : (ad.adf e).fd = .file
      · have := adTmplockFd_framed (kernel e) (hu e) (hwf' e) hfd (ad.tmplockShift_nonneg e) hok
        cases e with
        | dfork | rfork => exact this
      · have hs₂ := adTmplockFd_same (kernel e) t.cleared (ad.tmplockShift e t) off len fork
          (adTmplockFd (kernel e) t (ad.tmplockShift e t) off len fork (ad.adf e)).2
        cases e with
        | dfork | rfork => exact Framed.of_same hs hs₂ hfd fun b hb => hfd hb.1
    · have := Framed.refl (ad.adf e) (P := fun b => e = eid ∧
        (ad.adf e).Gap (off + ad.tmplockShift eid t) len b) fun b hb => he hb.1
      cases eid with
      | dfork =>
        cases e with
        | dfork => exact absurd rfl he
        | rfork => exact this
      | rfork =>
        cases e with
        | dfork => exact this
        | rfork => exact absurd rfl he

end call

/-- A temporary write lock over bytes 0 to 19 goes around the read entry over bytes 5 to 9, and
its release leaves the kernel's locks as they were. -/
theorem adTmplock_cleared_framed_readEntry :
    (adTmplock grantAll .dfork ⟨.wr, false, false⟩ 0 20 2 readEntry).2.dataFork.held 0 = .wr ∧
    (adTmplock grantAll .dfork ⟨.clr, false, false⟩ 0 20 2
      (adTmplock grantAll .dfork ⟨.wr, false, false⟩ 0 20 2 readEntry).2).2.dataFork.held =
        readEntry.dataFork.held := by
  have hu : ∀ eid, (grantAll eid).Unlocks := by
    intro eid n r hr
    rfl
  have hok : (adTmplock grantAll .dfork ⟨.wr, false, false⟩ 0 20 2 readEntry).1 = .ok := by decide
  exact ⟨by decide, ((adTmplock_cleared_framed grantAll hu readEntry
    (fun eid => wellFormed_iff.mpr (readEntry_wf eid)) .dfork ⟨.wr, false, false⟩ 0 20 2 hok
    .dfork).2 (readEntry_agrees .dfork rfl)).1⟩

end Netatalk.AdLock
