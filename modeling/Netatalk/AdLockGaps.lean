import Netatalk.AdLockWindow

/-! # The gap walk

`adf_lock_gaps` applies a lock operation to the stretches of a range between the entries of
the array.  On an open file whose kernel grants every release, a walk that succeeds gives
exactly the uncovered bytes of the range their new state, and a take that is refused on a
later stretch frees the uncovered bytes it had taken and touches no other byte
(`adfLockGaps_spec`).  Whatever the kernel answers, the walk leaves the array alone
(`adfLockGaps_same`). -/

namespace Netatalk.AdLock

open List

variable (env : Env)

/-! ### What a walk leaves alone -/

/-- The descriptor and its array are the same; the kernel's locks may differ if it is open. -/
structure Same (f f' : LockFile) : Prop where
  fd : f'.fd = f.fd
  rdwr : f'.rdwr = f.rdwr
  lock : f'.lock = f.lock
  lockmax : f'.lockmax = f.lockmax
  held : f.fd ≠ .file → f'.held = f.held

theorem Same.refl (f : LockFile) : Same f f := ⟨rfl, rfl, rfl, rfl, fun _ => rfl⟩

theorem Same.trans {f f' f'' : LockFile} (h : Same f f') (h' : Same f' f'') : Same f f'' :=
  ⟨h'.fd.trans h.fd, h'.rdwr.trans h.rdwr, h'.lock.trans h.lock, h'.lockmax.trans h.lockmax,
    fun hf => (h'.held (h.fd ▸ hf)).trans (h.held hf)⟩

theorem setLock_same (r : Flock) (f : LockFile) : Same f (setLock env r f).2 := by
  fun_cases setLock env r f with
  | case1 | case2 => exact .refl f
  | case3 => exact ⟨rfl, rfl, rfl, rfl, fun _ => rfl⟩
  | case4 hfd => exact ⟨rfl, rfl, rfl, rfl, fun hf => absurd hfd hf⟩

theorem gapStretch_same (r : Flock) (done stop : ℤ) (f : LockFile) :
    Same f (gapStretch env r done stop f).2 := by
  fun_cases gapStretch env r done stop f
  · exact setLock_same env _ f
  · exact .refl f

variable {K : LockMap} {b d done last len off : ℤ} {e : AdfLock} {es : List AdfLock} {r : Flock}
  {st : Held} {undo : ℤ → LockFile → LockFile}

section rel
variable {R : LockFile → LockFile → Prop} (refl : ∀ f, R f f)
  (trans : ∀ {f f' f''}, R f f' → R f' f'' → R f f'')
include refl trans

section
variable (hset : ∀ done stop f, R f (gapStretch env r done stop f).2)
include hset

/-- What every request of the loop and its undoing keep, the loop keeps. -/
theorem gapsLoop_rel (hundo : ∀ d f, R f (undo d f)) (done : ℤ) (ret : Bool) (f : LockFile) :
    R f (gapsLoop env r last undo es done ret f).2 := by
  have stretch : ∀ {done stop f ok f₁}, gapStretch env r done stop f = (ok, f₁) → R f f₁ := by
    intro done stop f ok f₁ he
    have hs := hset done stop f
    rw [he] at hs
    exact hs
  fun_induction gapsLoop env r last undo es done ret f with
  | case1 done ret f hd f₁ he => exact stretch he
  | case2 done ret f hd f₁ he => exact trans (stretch he) (hundo done f₁)
  | case3 done ret f hd f₁ he => exact stretch he
  | case4 done ret f => exact refl f
  | case5 e es done ret f hd next f₁ he ih => exact trans (stretch he) ih
  | case6 e es done ret f hd f₁ he => exact trans (stretch he) (hundo done f₁)
  | case7 e es done ret f hd next f₁ he hty ih => exact trans (stretch he) ih
  | case8 e es done ret f => exact refl f

theorem walkGaps_rel
    (hundo : ∀ d f, R f (undo d f)) (f : LockFile) : R f (walkGaps env undo r f).2 := by
  unfold walkGaps
  simp only
  split_ifs
  · exact gapsLoop_rel env refl trans hset hundo _ _ _
  · exact refl f

/-- What the requests of a walk and the releases that undo it keep, the walk keeps. -/
theorem adfLockGaps_rel
    (hclr : ∀ start len done stop f, R f (gapStretch env ⟨.unlck, start, len⟩ done stop f).2)
    (f : LockFile) : R f (adfLockGaps env r f).2 := by
  apply walkGaps_rel env refl trans hset
  intro d f
  split_ifs
  · exact walkGaps_rel env refl trans (hclr _ _) (fun _ f => refl f) f
  · exact refl f

end

end rel

theorem adfLockGaps_same (r : Flock) (f : LockFile) : Same f (adfLockGaps env r f).2 :=
  adfLockGaps_rel env Same.refl Same.trans (gapStretch_same env r)
    (fun _ _ => gapStretch_same env _) f

/-! ### The bytes a walk reaches -/

/-- `K` with the state `st` on the bytes of `done + 1..d` that no entry of `es` covers. -/
def fill (K : LockMap) (done d : ℤ) (es : List AdfLock) (st : Held) : LockMap := fun b =>
  if done < b ∧ b ≤ d ∧ ∀ e ∈ es, ¬ e.Covers b then st else K b

theorem fill_of (h₁ : done < b)
    (h₂ : b ≤ d) (h₃ : ∀ e ∈ es, ¬ e.Covers b) : fill K done d es st b = st := by
  unfold fill
  rw [if_pos ⟨h₁, h₂, h₃⟩]

theorem fill_not
    (h : ¬ (done < b ∧ b ≤ d ∧ ∀ e ∈ es, ¬ e.Covers b)) : fill K done d es st b = K b := by
  unfold fill
  rw [if_neg h]

theorem fill_empty (h : d ≤ done) : fill K done d es st = K := by
  funext b
  exact fill_not (by omega)

theorem fill_nil : fill K done d [] st = K.set (done + 1) d st := by
  funext b
  unfold fill LockMap.set
  have : (done < b ∧ b ≤ d ∧ ∀ e ∈ ([] : List AdfLock), ¬ e.Covers b) ↔ done + 1 ≤ b ∧ b ≤ d := by
    simp only [not_mem_nil, false_imp_iff, implies_true, and_true]
    omega
  simp only [this]

/-- The kernel's locks after the stretch in front of an entry. -/
def beforeEntry (K : LockMap) (done : ℤ) (e : AdfLock) (st : Held) : LockMap :=
  if e.start - 1 > done then K.set (done + 1) (e.start - 1) st else K

/-- The stretch in front of an entry, then the walk past it. -/
theorem fill_cons (hok : e.Ok) (hsort : ∀ e' ∈ es, e.start ≤ e'.start) (hd : e.start ≤ d + 1) :
    fill (beforeEntry K done e st) (max done e.last) d es st = fill K done d (e :: es) st := by
  have hle := AdfLock.start_le_last hok
  have hK : ∀ b, beforeEntry K done e st b = if done < b ∧ b < e.start then st else K b := by
    intro b
    unfold beforeEntry
    by_cases hgap : e.start - 1 > done
    · rw [if_pos hgap]
      exact if_congr (by omega) rfl rfl
    · rw [if_neg hgap, if_neg (by omega)]
  funext b
  by_cases hb : b ≤ max done e.last
  · rw [fill_not (by omega), hK]
    split_ifs with hgap
    · -- a byte of the stretch: neither this entry nor a later one covers it
      rw [fill_of hgap.1 (by have := hgap.2; omega)]
      intro e' he' hc
      rcases mem_cons.mp he' with rfl | he'
      · have := hc.1
        omega
      · have := hsort e' he'
        have := hc.1
        omega
    · rw [fill_not]
      rintro ⟨h₁, _, h₃⟩
      refine h₃ e (by simp) ⟨by omega, ?_⟩
      rcases le_max_iff.mp hb with h | h <;> omega
  · have hbd : done < b ∧ e.last < b := by
      rw [not_le, max_lt_iff] at hb
      exact hb
    by_cases hc : b ≤ d ∧ ∀ e' ∈ es, ¬ e'.Covers b
    · rw [fill_of (not_le.mp hb) hc.1 hc.2, fill_of hbd.1 hc.1]
      intro e' he' hcov
      rcases mem_cons.mp he' with rfl | he'
      · have := hcov.2
        omega
      · exact hc.2 e' he' hcov
    · rw [fill_not (fun h => hc h.2), fill_not, hK, if_neg (by omega)]
      rintro ⟨_, h₂, h₃⟩
      exact hc ⟨h₂, fun e' he' => h₃ e' (by simp [he'])⟩

/-! ### The walk on an open file -/

/-- A request on an open file is granted or refused. -/
theorem setLock_file (r : Flock) {f : LockFile} (hfd : f.fd = .file) :
    (∃ f', setLock env r f = (true, f') ∧ Same f f' ∧
      f'.held = f.held.set r.lStart (adfLockLast r.lStart r.lLen) r.lType.held) ∨
    (∃ f', setLock env r f = (false, f') ∧ Same f f' ∧ f'.held = f.held ∧
      (env.Unlocks → r.lType ≠ .unlck)) := by
  have hs := setLock_same env r f
  unfold setLock at hs ⊢
  rw [hfd] at hs ⊢
  split_ifs at hs ⊢ with hr
  · right
    refine ⟨_, rfl, hs, rfl, ?_⟩
    intro hu hty
    rw [hu f.clock r hty] at hr
    exact Bool.false_ne_true hr
  · left
    exact ⟨_, rfl, hs, rfl⟩

theorem gapStretch_file (stop : ℤ) {f : LockFile} (hfd : f.fd = .file) (htop : stop ≤ lockTop) :
    (∃ f', gapStretch env r done stop f = (true, f') ∧ Same f f' ∧
      f'.held = if stop > done then f.held.set (done + 1) stop r.lType.held else f.held) ∨
    (∃ f', gapStretch env r done stop f = (false, f') ∧ Same f f' ∧ f'.held = f.held ∧
      (env.Unlocks → r.lType ≠ .unlck)) := by
  unfold gapStretch
  by_cases hgap : stop > done
  · have hstop : adfLockLast (done + 1) (if stop < lockTop then stop - done else 0) = stop := by
      unfold adfLockLast
      split_ifs <;> omega
    have h := setLock_file env ⟨r.lType, done + 1, if stop < lockTop then stop - done else 0⟩ hfd
    simp only [hstop] at h
    rw [if_pos hgap, if_pos hgap]
    exact h
  · left
    rw [if_neg hgap, if_neg hgap]
    exact ⟨f, rfl, .refl f, rfl⟩

/-- The entries a walk meets: in order, each inside the range's end, and with the reach of the
entries before them at most `done`. -/
structure Walk (last done : ℤ) (es : List AdfLock) : Prop where
  ok : ∀ e ∈ es, e.Ok
  start_le : ∀ e ∈ es, e.start ≤ last
  sorted : es.Pairwise fun a b => a.start ≤ b.start
  reach : ∃ ρ, ρ ≤ done ∧ reachLoop ρ es = es

theorem Walk.next (h : Walk last done (e :: es)) :
    (if e.reach > done then e.reach else done) = max done e.last := by
  obtain ⟨ρ, hρ, hreach⟩ := h.reach
  rw [reachLoop_cons] at hreach
  have hr : e.reach = max ρ e.last := by
    have := congrArg AdfLock.reach (cons.inj hreach).1
    exact this.symm
  split_ifs <;> omega

theorem Walk.tail (h : Walk last done (e :: es)) : Walk last (max done e.last) es := by
  obtain ⟨ρ, hρ, hreach⟩ := h.reach
  rw [reachLoop_cons] at hreach
  exact ⟨fun e' he' => h.ok e' (by simp [he']), fun e' he' => h.start_le e' (by simp [he']),
    (pairwise_cons.mp h.sorted).2, max ρ e.last, by omega, (cons.inj hreach).2⟩

/-- A walk reaches the range's end, or a take is refused at a stretch and the stretches before
it are undone. -/
theorem gapsLoop_held (hu : env.Unlocks) (undo : ℤ → LockFile → LockFile) (hlast : last ≤ lockTop)
    (done : ℤ) (ret : Bool) (f : LockFile) (hfd : f.fd = .file) (hes : Walk last done es) :
    (∃ f', gapsLoop env r last undo es done ret f = (ret, f') ∧ Same f f' ∧
      f'.held = fill f.held done last es r.lType.held) ∨
    (r.lType ≠ .unlck ∧ ∃ d f', done ≤ d ∧ d < last ∧
      gapsLoop env r last undo es done ret f = (false, undo d f') ∧ Same f f' ∧
      f'.held = fill f.held done d es r.lType.held) := by
  induction es generalizing done ret f with
  | nil =>
    unfold gapsLoop
    by_cases hd : done < last
    · rw [if_pos hd]
      rcases gapStretch_file env last hfd hlast with
        ⟨f₁, he, hs, hh⟩ | ⟨f₁, he, hs, hh, hty⟩
      · left
        rw [if_pos hd, ← fill_nil] at hh
        rw [he]
        exact ⟨f₁, rfl, hs, hh⟩
      · right
        rw [he]
        simp only
        rw [if_pos (hty hu)]
        exact ⟨hty hu, done, f₁, le_refl done, hd, rfl, hs, by rw [hh, fill_empty le_rfl]⟩
    · left
      rw [if_neg hd]
      exact ⟨f, rfl, .refl f, by rw [fill_empty (by omega)]⟩
  | cons e es ih =>
    unfold gapsLoop
    by_cases hd : done < last
    · rw [if_pos hd]
      have hok := hes.ok e (by simp)
      have hstart := hes.start_le e (by simp)
      have hle := AdfLock.start_le_last hok
      have hsort := (pairwise_cons.mp hes.sorted).1
      rcases gapStretch_file env (e.start - 1) hfd (by omega) with
        ⟨f₁, he, hs, hh⟩ | ⟨f₁, he, hs, hh, hty⟩
      · rw [he, hes.next]
        change f₁.held = beforeEntry f.held done e r.lType.held at hh
        rcases ih (max done e.last) ret f₁ (hs.fd.trans hfd) hes.tail with
          ⟨f₂, he₂, hs₂, hh₂⟩ | ⟨hty, d, f₂, hd₁, hd₂, he₂, hs₂, hh₂⟩
        · left
          refine ⟨f₂, he₂, hs.trans hs₂, ?_⟩
          rw [hh₂, hh, fill_cons hok hsort (by omega)]
        · right
          refine ⟨hty, d, f₂, by omega, hd₂, he₂, hs.trans hs₂, ?_⟩
          rw [hh₂, hh, fill_cons hok hsort (by omega)]
      · right
        rw [he]
        simp only
        rw [if_pos (hty hu)]
        exact ⟨hty hu, done, f₁, le_refl done, hd, rfl, hs, by rw [hh, fill_empty le_rfl]⟩
    · left
      rw [if_neg hd]
      exact ⟨f, rfl, .refl f, by rw [fill_empty (by omega)]⟩

/-! ### The walk over the array -/

section walk
variable {f : LockFile} (hfd : f.fd = .file) (h : Wf f.lock)
include h

/-- The window's entries, behind the entries that end before the range. -/
theorem Wf.walk (hr : Admissible off len) (hle : off ≤ adfLockLast off len) :
    Walk (adfLockLast off len) (off - 1)
      ((f.lock.drop (adfLockWindow f.lock off len).1).take
        ((adfLockWindow f.lock off len).2 - (adfLockWindow f.lock off len).1)) := by
  have hwin := h.window_le hle
  generalize hlo : (adfLockWindow f.lock off len).1 = lo at *
  generalize hhi : (adfLockWindow f.lock off len).2 = hi at *
  have hsub : ((f.lock.drop lo).take (hi - lo)).Sublist f.lock :=
    (take_sublist _ _).trans (drop_sublist _ _)
  refine ⟨fun e he => h.ok e (hsub.subset he), ?_, h.sorted.sublist hsub, ?_⟩
  · intro e he
    obtain ⟨j, hj, rfl⟩ := mem_iff_getElem.mp he
    rw [length_take, length_drop] at hj
    rw [getElem_take, getElem_drop]
    exact h.start_le_of_lt_window off len (by omega) (by omega)
  · refine ⟨reachEnd (-1) (f.lock.take lo), ?_, ?_⟩
    · rcases reachEnd_cases (-1) (f.lock.take lo) with he | ⟨e, he, heq⟩
      · have := hr.nonneg
        omega
      · obtain ⟨j, hj, rfl⟩ := mem_take_iff_getElem.mp he
        have := h.last_lt_of_lt_window off len (i := j) (by omega) (by omega)
        omega
    · -- the recomputation leaves the array alone, so it leaves this part of it alone
      have e := h.reach_take hi
      have hsplit : f.lock.take hi = f.lock.take lo ++ (f.lock.drop lo).take (hi - lo) := by
        rw [← take_add]
        congr 1
        omega
      rw [hsplit, reachLoop_append] at e
      exact (append_inj e (reachLoop_length _ _)).2

/-- Inside the range, no entry of the window covers a byte exactly when none of the array does. -/
theorem Wf.uncovered_window (off len : ℤ) (h₁ : off ≤ b) (h₂ : b ≤ adfLockLast off len) :
    (∀ e ∈ (f.lock.drop (adfLockWindow f.lock off len).1).take
        ((adfLockWindow f.lock off len).2 - (adfLockWindow f.lock off len).1), ¬ e.Covers b) ↔
      ∀ e ∈ f.lock, ¬ e.Covers b := by
  constructor
  · intro hw e he hb
    obtain ⟨i, hi, rfl⟩ := mem_iff_getElem.mp he
    obtain ⟨hlo, hhi⟩ := h.mem_window hi h₁ h₂ hb
    refine hw f.lock[i] ?_ hb
    rw [mem_take_iff_getElem]
    refine ⟨i - (adfLockWindow f.lock off len).1, ?_, ?_⟩
    · rw [length_drop]
      omega
    · rw [getElem_drop]
      congr 1
      omega
  · intro ha e he
    exact ha e (mem_of_mem_drop (mem_of_mem_take he))

/-- Filling the window's gaps is filling the array's. -/
theorem Wf.fill_window (hd : d ≤ adfLockLast off len) :
    fill K (off - 1) d ((f.lock.drop (adfLockWindow f.lock off len).1).take
        ((adfLockWindow f.lock off len).2 - (adfLockWindow f.lock off len).1)) st =
      fill K (off - 1) d f.lock st := by
  funext b
  by_cases hb : off - 1 < b ∧ b ≤ d
  · have hiff := h.uncovered_window off len (b := b) (by omega) (by omega)
    exact if_congr (and_congr_right fun _ => and_congr_right fun _ => hiff) rfl rfl
  · rw [fill_not (by tauto), fill_not (by tauto)]

include hfd

theorem walkGaps_held (hu : env.Unlocks) (hr : Admissible r.lStart r.lLen)
    (hle : r.lStart ≤ adfLockLast r.lStart r.lLen) :
    (∃ f', walkGaps env undo r f = (true, f') ∧ Same f f' ∧
      f'.held = fill f.held (r.lStart - 1) (adfLockLast r.lStart r.lLen) f.lock r.lType.held) ∨
    (r.lType ≠ .unlck ∧ ∃ d f', r.lStart - 1 ≤ d ∧ d < adfLockLast r.lStart r.lLen ∧
      walkGaps env undo r f = (false, undo d f') ∧ Same f f' ∧
      f'.held = fill f.held (r.lStart - 1) d f.lock r.lType.held) := by
  unfold walkGaps
  rw [if_pos (h.window_le hle)]
  rcases gapsLoop_held env hu undo hr.last_le _ true f hfd (h.walk hr hle) with
    ⟨f', he, hs, hh⟩ | ⟨hty, d, f', hd₁, hd₂, he, hs, hh⟩
  · left
    rw [h.fill_window le_rfl] at hh
    exact ⟨f', he, hs, hh⟩
  · right
    rw [h.fill_window hd₂.le] at hh
    exact ⟨hty, d, f', hd₁, hd₂, he, hs, hh⟩

/-- The gap walk either gives every uncovered byte of the range its new state, or it is a take
that fails and leaves behind freed bytes that no entry covers. -/
theorem adfLockGaps_spec (hu : env.Unlocks) (hr : Admissible r.lStart r.lLen)
    (hle : r.lStart ≤ adfLockLast r.lStart r.lLen) :
    (∃ f', adfLockGaps env r f = (true, f') ∧ Same f f' ∧
      f'.held = fill f.held (r.lStart - 1) (adfLockLast r.lStart r.lLen) f.lock r.lType.held) ∨
    (r.lType ≠ .unlck ∧ ∃ d f', adfLockGaps env r f = (false, f') ∧ Same f f' ∧
      f'.held = fill f.held (r.lStart - 1) d f.lock .free) := by
  rcases walkGaps_held env hfd h hu hr hle with hok | ⟨hty, d, f₁, hd₁, hd₂, he, hs, hh⟩
  · exact .inl hok
  · right
    refine ⟨hty, d, _, he, ?_⟩
    split_ifs with hd
    · have hlast : adfLockLast r.lStart (d - r.lStart + 1) = d := by
        unfold adfLockLast
        omega
      have hr' : Admissible r.lStart (d - r.lStart + 1) :=
        ⟨hr.nonneg, by omega, by rw [hlast]; exact hd₂.le.trans hr.last_le⟩
      rcases walkGaps_held env (f := f₁) (hs.fd.trans hfd) (hs.lock ▸ h) hu
        (r := ⟨.unlck, r.lStart, d - r.lStart + 1⟩) hr' (by simp only [hlast]; exact hd) with
        ⟨f₂, he₂, hs₂, hh₂⟩ | ⟨hty₂, _⟩
      · rw [he₂]
        refine ⟨hs.trans hs₂, ?_⟩
        rw [hh₂, hh, hs.lock]
        simp only [hlast]
        funext b
        by_cases hb : r.lStart - 1 < b ∧ b ≤ d ∧ ∀ e ∈ f.lock, ¬ e.Covers b
        · rw [fill_of hb.1 hb.2.1 hb.2.2, fill_of hb.1 hb.2.1 hb.2.2]
          rfl
        · rw [fill_not hb, fill_not hb, fill_not hb]
      · exact absurd rfl hty₂
    · refine ⟨hs, ?_⟩
      rw [hh, fill_empty (by omega), fill_empty (by omega)]

end walk

end Netatalk.AdLock
