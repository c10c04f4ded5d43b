import Netatalk.ForkSetmode

/-! # When share modes exclude each other

`fork_setmode` tests a slot of the band and locks another one in two calls into the kernel, and
every lock of the band is a read lock, which the kernel grants beside any other.  Exclusion rests
on the tests alone: it holds along every run in which no process locks a slot that another one
has found free and still relies on (`exclusive_of_undisturbedRun`), and fails when two opens that
are in each other's way make their tests before either has locked
(`crossed_opens_not_exclusive`). -/

namespace Netatalk.AdLock

open List Function

/-! ### Entries that stay -/

/-- The array has an entry of the fork at the offset. -/
def Records (arr : List AdfLock) (fork off : ℤ) : Prop :=
  ∃ e ∈ arr, e.user = fork ∧ e.start = off

variable {env : Env} {f : LockFile} {fork off : ℤ} {lock : Flock}

theorem Records.reachLoop {arr : List AdfLock} (h : Records arr fork off) (r : ℤ) :
    Records (reachLoop r arr) fork off := by
  obtain ⟨e, he, hu, ho⟩ := h
  induction arr generalizing r with
  | nil => cases he
  | cons x xs ih =>
    rw [reachLoop_cons]
    rcases mem_cons.mp he with rfl | he
    · exact ⟨_, mem_cons_self, hu, ho⟩
    · obtain ⟨e', he', h'⟩ := ih (max r x.last) he
      exact ⟨e', mem_cons_of_mem _ he', h'⟩

theorem Sound.held_ne_free (h : Sound f) (hfd : f.fd = .file)
    (hr : Records f.lock fork off) : f.held off ≠ .free := by
  obtain ⟨e, he, _, ho⟩ := hr
  rw [h.exact hfd]
  intro hfree
  refine (unionMap_free_iff _ _).mp hfree e.span (List.mem_map_of_mem he) ?_
  have := AdfLock.start_le_last (h.wf.ok e he)
  unfold AdfLock.span Span.Covers
  simp only
  omega

/-- The entries of other forks outlive the release of a fork. -/
theorem adfUnlock_records (env : Env) {user : ℤ} (hne : user ≠ fork) (h : Wf f.lock)
    (hr : Records f.lock user off) : Records (adfUnlock env fork f).lock user off := by
  unfold adfUnlock
  generalize f.lock.length = n
  induction n generalizing f with
  | zero => exact hr
  | succ n ih =>
    unfold adfUnlockLoop
    cases hg : f.lock[n]? with
    | none => exact ih h hr
    | some =>
      simp only
      split_ifs with hu
      · obtain ⟨hn, hget⟩ := List.getElem?_eq_some_iff.mp hg
        refine ih (adfFreelock_wf env h) ?_
        rw [adfFreelock_lock env h hn]
        obtain ⟨e', he', hu', ho⟩ := hr
        refine Records.reachLoop ⟨e', ?_, hu', ho⟩ _
        obtain ⟨i, hi, rfl⟩ := getElem_of_mem he'
        -- the entry that goes has another user
        refine mem_eraseIdx_iff_getElem.mpr ⟨i, hi, ?_, rfl⟩
        rintro rfl
        rw [hget] at hu'
        exact hne (hu'.symm.trans hu)
      · exact ih h hr

theorem adfUnlock_fd (env : Env) (fork : ℤ) (f : LockFile) : (adfUnlock env fork f).fd = f.fd :=
  adfUnlock_induct (P := fun f' => f'.fd = f.fd) env
    (fun i f' hf' => (adfFreelock_fd env i f').trans hf') rfl

/-- A take that finds no entry of its fork over its range, and succeeds, is recorded beside the
entries there were. -/
theorem recordLock_records (h : Wf f.lock)
    (ht : Take lock fork f.lock) (hc : ∀ e ∈ f.lock, (⟨lock, fork, 0⟩ : AdfLock).Compatible e)
    (hok : (recordLock env lock fork f).1 = .ok) :
    Records (recordLock env lock fork f).2.lock fork lock.lStart ∧
    ∀ user off, Records f.lock user off → Records (recordLock env lock fork f).2.lock user off := by
  have hins : ∀ g : LockFile, g.lock = f.lock →
      Records (insertLock lock fork g).lock fork lock.lStart ∧
      ∀ user off, Records f.lock user off → Records (insertLock lock fork g).lock user off := by
    intro g hg
    unfold AdLock.insertLock
    rw [hg]
    simp only
    rw [(h.insertLock ht hc).1]
    have hmem : ∀ x, x ∈ f.lock.insertIdx (adfLockLower f.lock lock.lStart false)
        ⟨lock, fork, 0⟩ ↔ x = ⟨lock, fork, 0⟩ ∨ x ∈ f.lock := by
      intro x
      rw [mem_insertIdx (h.lower_le lock.lStart false)]
    constructor
    · exact Records.reachLoop ⟨_, (hmem _).mpr (.inl rfl), rfl, rfl⟩ _
    · rintro user off ⟨e, he, hu, ho⟩
      exact Records.reachLoop ⟨e, (hmem e).mpr (.inr he), hu, ho⟩ _
  revert hok
  fun_cases recordLock env lock fork f with
  | case1 =>
    intro hok
    cases hok
  | case2 hmax hfail g => exact fun _ => hins g rfl
  | case3 => exact fun _ => hins f rfl

/-- The same for a whole take of a read lock that asks for no upgrade. -/
theorem adLockChecked_records {t : Locktype}
    (h : Wf f.lock) (hup : t.upgrade = false) (hty : lock.lType = .rdlck) (h₀ : 0 ≤ lock.lStart)
    (hlen : 0 < lock.lLen) (hlast : adfLockLast lock.lStart lock.lLen ≤ lockTop)
    (hok : (adLockChecked env t .rd lock fork f).1 = .ok) :
    Records (adLockChecked env t .rd lock fork f).2.lock fork lock.lStart ∧
    ∀ user off, Records f.lock user off →
      Records (adLockChecked env t .rd lock fork f).2.lock user off := by
  revert hok
  fun_cases adLockChecked env t .rd lock fork f with
  | case4 hx hf hun f' hs =>
    intro hok
    have hx := Option.not_isSome_iff_eq_none.mp fun hs => hx ⟨hun, hs⟩
    have ht := h.take (show lock.lType = xlateFcntlLock .rd from hty) hun h₀ hlen hlast hx
    have hsame := (setLock_granted env hs).1.lock
    have hr := recordLock_records (hsame ▸ h) (hsame ▸ ht)
      (hsame ▸ h.take_compatible ht hf) hok
    rw [hsame] at hr
    exact hr
  | case7 hx i hf e hg hbad hun =>
    rw [hty] at hun
    cases hun
  | case9 hx i hf e hg hbad hun => exact absurd (.inr (.inr ⟨hup, hun⟩)) hbad
  | _ => exact fun hok => by cases hok

end Netatalk.AdLock

namespace Netatalk.ShareMode

open List Function AdLock

/-! ### Locks of the band -/

theorem bandOff_bounds (eid : Eid) (b : Band) : 0 ≤ bandOff eid b ∧ bandOff eid b ≤ lockTop := by
  cases eid <;> cases b <;> decide

variable {a : Access} {b b' : Band} {env : Env} {f : LockFile} {found taken : List Band} {g : Getlk}
  {k : Ret → Script} {o : Fork} {off : ℤ} {r : Ret}

theorem bandLock_outcome (env : Env) (eid : Eid) (b : Band) (fork : ℤ) (h : Wf f.lock) :
    Outcome env fork f (bandLock env eid b fork f).1 (bandLock env eid b fork f).2 :=
  adLockFd_outcome env _ _ _ _ h (le_refl 0)

/-- A slot that is locked is recorded for its fork, and nothing recorded is lost. -/
theorem bandLock_records {eid : Eid} {fork : ℤ}
    (h : Wf f.lock) (hok : (bandLock env eid b fork f).1 = .ok) :
    Records (bandLock env eid b fork f).2.lock fork (bandOff eid b) ∧
    ∀ user off, Records f.lock user off →
      Records (bandLock env eid b fork f).2.lock user off := by
  obtain ⟨h₀, htop⟩ := bandOff_bounds eid b
  have hlen : (1 : ℤ) ≠ bytelockMax := by decide
  have hmode : f.degrade .rd = .rd := by simp [LockFile.degrade]
  have hlast : adfLockLast (bandOff eid b) 1 ≤ lockTop := by
    unfold adfLockLast
    omega
  have hfits : adfLockFits (bandOff eid b) 1 = true := by
    unfold adfLockFits
    rw [decide_eq_true_eq]
    omega
  have heq : bandLock env eid b fork f =
      adLockChecked env ⟨.rd, false, true⟩ .rd ⟨.rdlck, bandOff eid b, 1⟩ fork f := by
    unfold bandLock adLockFd
    rw [if_neg (by omega)]
    simp [hmode, hlen, hfits, xlateFcntlLock]
  rw [heq] at hok ⊢
  exact adLockChecked_records h rfl rfl h₀ Int.one_pos hlast hok

/-- Nothing recorded is lost through a lock, granted or not. -/
theorem bandLock_keeps (hu : env.Unlocks) (eid : Eid) (b : Band) (fork : ℤ) (h : Sound f) {user : ℤ}
    (hr : Records f.lock user off) :
    Records (bandLock env eid b fork f).2.lock user off := by
  have ho := bandLock_outcome env eid b fork h.wf
  cases hret : (bandLock env eid b fork f).1 with
  | ok => exact (bandLock_records h.wf hret).2 user off hr
  | err =>
    rw [hret] at ho
    rw [(ho.restores env hu h).1.lock]
    exact hr
  | panic =>
    rw [hret] at ho
    cases ho

/-- A test that finds a slot free: no fork of any process has recorded it. -/
theorem testlock_free {P : Type} {s : P → Proc} {p : P}
    (hsound : ∀ q, Sound (s q).file) (hfd : ∀ q, (s q).file.fd = .file) (hp : Probe s p off g)
    (h : testlock g off (s p).file = some false) (q : P) (fork : ℤ) :
    ¬ Records (s q).file.lock fork off := by
  unfold testlock at h
  rw [hfd p] at h
  split_ifs at h with hany
  · cases h
  by_cases hq : q = p
  · rintro ⟨e, he, _, ho⟩
    rw [hq] at he
    refine hany (List.any_eq_true.mpr ⟨e, he, ?_⟩)
    have := ((hsound p).wf.ok e he).2.1
    unfold AdfLock.start at ho
    unfold overlap
    simp
    omega
  · cases g with
    | unlck => exact fun hr => (hsound q).held_ne_free (hfd q) hr (hp q hq)
    | locked | eacces | error => cases h

/-! ### What a call has found and taken -/

/-- The rest of a call, read against the slots it has found free and those it has taken: it locks
a wanted slot only when it has found the opposite one free, and succeeds with all it wants. -/
def Script.Follows (a : Access) : Script → List Band → List Band → Prop
  | .ret r, _, taken => r = .ok → ∀ b, a.wants b = true → b ∈ taken
  | .test b k, found, taken => (k none).Follows a found taken ∧
      (k (some true)).Follows a found taken ∧ (k (some false)).Follows a (b :: found) taken
  | .lock b k, found, taken => a.wants b = true ∧ (∀ b', b.opposite = some b' → b' ∈ found) ∧
      ∀ r, (k r).Follows a found (if r = .ok then b :: taken else taken)

theorem follows_testThen {k : Bool → Script} (ht : (k true).Follows a found taken)
    (hf : (k false).Follows a (b :: found) taken) : (testThen b k).Follows a found taken :=
  ⟨(fun h => by cases h), ht, hf⟩

theorem follows_lockThen {k : Script}
    (hw : a.wants b = true) (ho : ∀ b', b.opposite = some b' → b' ∈ found)
    (hk : k.Follows a found (b :: taken)) : (lockThen b k).Follows a found taken := by
  refine ⟨hw, ho, ?_⟩
  intro r
  cases r with
  | ok => exact hk
  | err | panic => exact fun h => by cases h

theorem follows_err {e : Errno} : (Script.ret (.err e)).Follows a found taken :=
  fun h => by cases h

theorem opposite_mem {l : List Band} (h : b.opposite = some b') (hm : b' ∈ l) :
    ∀ x, b.opposite = some x → x ∈ l := by
  intro x hx
  rw [h] at hx
  cases hx
  exact hm

/-- One half of the call leads to the rest with its slots taken. -/
theorem follows_setmodeHalf {openBand denyBand : Band} {next : Script}
    (hopp : openBand.opposite = some denyBand)
    (hnext : ∀ found' taken', (∀ b ∈ taken, b ∈ taken') →
      (a.wants openBand = true → openBand ∈ taken') →
      (a.wants denyBand = true → denyBand ∈ taken') → next.Follows a found' taken') :
    (setmodeHalf (a.wants openBand) (a.wants denyBand) openBand denyBand next).Follows a found
      taken := by
  have hdeny := Band.opposite_symm hopp
  unfold setmodeHalf
  cases hacc : a.wants openBand <;> cases hden : a.wants denyBand <;> simp only [Bool.or_self,
    Bool.or_true, Bool.or_false, Bool.false_eq_true, if_false, if_true, Bool.true_and,
    Bool.false_and]
  · exact hnext _ _ (fun b hb => hb) (by simp [hacc]) (by simp [hden])
  · refine follows_testThen (follows_testThen follows_err follows_err) ?_
    have locks : ∀ found', openBand ∈ found' → (lockThen denyBand next).Follows a found' taken := by
      intro found' hf
      refine follows_lockThen hden (opposite_mem hdeny hf) (hnext _ _ ?_ ?_ ?_)
      · exact fun b hb => mem_cons_of_mem _ hb
      · simp [hacc]
      · exact fun _ => mem_cons_self
    exact follows_testThen (locks _ (by simp)) (locks _ (by simp))
  · refine follows_testThen follows_err ?_
    refine follows_lockThen hacc (opposite_mem hopp mem_cons_self) (hnext _ _ ?_ ?_ ?_)
    · exact fun b hb => mem_cons_of_mem _ hb
    · exact fun _ => mem_cons_self
    · simp [hden]
  · refine follows_testThen (follows_testThen follows_err follows_err) ?_
    refine follows_testThen follows_err ?_
    refine follows_lockThen hacc (opposite_mem hopp mem_cons_self) ?_
    refine follows_lockThen hden (opposite_mem hdeny (by simp)) (hnext _ _ ?_ ?_ ?_)
    · exact fun b hb => mem_cons_of_mem _ (mem_cons_of_mem _ hb)
    · exact fun _ => by simp
    · exact fun _ => mem_cons_self

theorem follows_forkSetmode (a : Access) : (forkSetmode a).Follows a [] [] := by
  unfold forkSetmode
  split_ifs with hnone
  · refine ⟨hnone, (fun b' hb => by cases hb), ?_⟩
    intro r hr b hb
    cases b <;> simp_all [Access.wants]
  · refine follows_setmodeHalf (show Band.openRd.opposite = some .denyRd from rfl) ?_
    intro found taken _ hrd hdrd
    refine follows_setmodeHalf (show Band.openWr.opposite = some .denyWr from rfl) ?_
    intro found' taken' hsub hwr hdwr _ b hb
    cases b with
    | openRd => exact hsub _ (hrd hb)
    | denyRd => exact hsub _ (hdrd hb)
    | openWr => exact hwr hb
    | denyWr => exact hdwr hb
    | openNone => exact absurd hb hnone

/-! ### The invariant -/

/-- The process holds the slot for the fork, by a completed open or by the one it is in. -/
def Proc.Holds (x : Proc) (o : Fork) (b : Band) : Prop :=
  (o ∈ x.opens ∧ o.access.wants b = true) ∨ ∃ c, x.pending = some c ∧ c.fork = o ∧ b ∈ c.taken

/-- What holds of each process: its array and the kernel agree, its forks have reference numbers
of their own, it has recorded the slots it holds, and its call goes by its tests. -/
structure Proc.Ok (x : Proc) : Prop where
  sound : Sound x.file
  fd : x.file.fd = .file
  refs : ∀ o ∈ x.opens, ∀ o' ∈ x.opens, o.ref = o'.ref → o = o'
  fresh : ∀ c, x.pending = some c → ∀ o ∈ x.opens, o.ref ≠ c.fork.ref
  records : ∀ o b, x.Holds o b → Records x.file.lock o.ref (bandOff o.eid b)
  follows : ∀ c, x.pending = some c → c.script.Follows c.fork.access c.found c.taken

variable {P : Type} [DecidableEq P] {s : P → Proc} {c : Pending} {x : Proc} {p : P}

/-- Only the fork of the call itself holds a slot the call relies on. -/
def Guarded (s : P → Proc) (p : P) (c : Pending) : Prop :=
  ∀ b, c.ReliesOn b → ∀ q o, (s q).Holds o b → o.eid = c.fork.eid → q = p ∧ o = c.fork

/-- What holds of the processes together. -/
structure Inv (s : P → Proc) : Prop where
  ok : ∀ p, (s p).Ok
  guard : ∀ p c, (s p).pending = some c → Guarded s p c
  excl : ∀ p q o o' b b', (s p).Holds o b → (s q).Holds o' b' → b.opposite = some b' →
    o.eid = o'.eid → p = q ∧ o = o'

omit [DecidableEq P] in
theorem Inv.exclusive (h : Inv s) : Exclusive s := by
  intro p q o ho o' ho' heid hne
  have clash : ∀ b b', b.opposite = some b' → o.access.wants b = true →
      o'.access.wants b' = true → False := by
    intro b b' hb hw hw'
    obtain ⟨hpq, hoo⟩ := h.excl p q o o' b b' (.inl ⟨ho, hw⟩) (.inl ⟨ho', hw'⟩) hb heid
    rcases hne with hne | hne
    · exact hne hpq
    · exact hne hoo
  exact ⟨fun hb => clash .openRd .denyRd rfl hb.1 hb.2,
    fun hb => clash .openWr .denyWr rfl hb.1 hb.2⟩

omit [DecidableEq P] in
theorem Inv.start (h : Start s) : Inv s := by
  have nothing : ∀ p o b, ¬ (s p).Holds o b := by
    intro p o b hh
    obtain ⟨rdwr, hp⟩ := h p
    rw [hp] at hh
    rcases hh with ⟨ho, _⟩ | ⟨c, hc, _⟩
    · cases ho
    · cases hc
  have idle : ∀ p, (s p).pending = none := by
    intro p
    obtain ⟨rdwr, hp⟩ := h p
    rw [hp]
    rfl
  refine ⟨?_, ?_, ?_⟩
  · intro p
    obtain ⟨rdwr, hp⟩ := h p
    have hfile : (s p).file.lock = [] ∧ (s p).file.held = .empty := by
      rw [hp]
      exact ⟨rfl, rfl⟩
    refine ⟨⟨?_, ?_⟩, ?_, ?_, ?_, ?_, ?_⟩
    · rw [hfile.1]
      exact wf_nil
    · intro _
      unfold AdLock.Exact
      rw [hfile.1, hfile.2]
      exact unionMap_nil.symm
    · rw [hp]
      rfl
    · intro o ho
      rw [hp] at ho
      cases ho
    · intro c hc
      rw [idle p] at hc
      cases hc
    · exact fun o b hh => absurd hh (nothing p o b)
    · intro c hc
      rw [idle p] at hc
      cases hc
  · intro p c hc
    rw [idle p] at hc
    cases hc
  · exact fun p q o o' b b' hh => absurd hh (nothing p o b)

/-- A step of one process that takes no slot keeps the invariant. -/
theorem Inv.update (h : Inv s) (hok : x.Ok) (hholds : ∀ o b, x.Holds o b → (s p).Holds o b)
    (hguard : ∀ c, x.pending = some c → Guarded s p c) : Inv (Function.update s p x) := by
  have old : ∀ q o b, (Function.update s p x q).Holds o b → (s q).Holds o b := by
    intro q o b hh
    by_cases hq : q = p
    · subst hq
      rw [update_self] at hh
      exact hholds o b hh
    · rwa [update_of_ne hq] at hh
  refine ⟨?_, ?_, ?_⟩
  · intro q
    by_cases hq : q = p
    · subst hq
      rw [update_self]
      exact hok
    · rw [update_of_ne hq]
      exact h.ok q
  · intro q c hc b hb r o hh
    have hg : Guarded s q c := by
      by_cases hq : q = p
      · subst hq
        rw [update_self] at hc
        exact hguard c hc
      · rw [update_of_ne hq] at hc
        exact h.guard q c hc
    exact hg b hb r o (old r o b hh)
  · intro q r o o' b b' hh hh'
    exact h.excl q r o o' b b' (old q o b hh) (old r o' b' hh')

/-! ### Steps -/

theorem Proc.Ok.call (h : x.Ok) (href : ∀ o' ∈ x.opens, o'.ref ≠ o.ref) :
    ({ x with pending := some ⟨o, forkSetmode o.access, [], []⟩ } : Proc).Ok := by
  refine ⟨h.sound, h.fd, h.refs, ?_, ?_, ?_⟩
  · rintro c ⟨⟩
    exact href
  · rintro o' b (ho | ⟨c, hc, _, hb⟩)
    · exact h.records o' b (.inl ho)
    · cases hc
      cases hb
  · rintro c ⟨⟩
    exact follows_forkSetmode o.access

section answers
variable {x : Proc} {c : Pending} (h : x.Ok) (hc : x.pending = some c)
include h hc

theorem Proc.Ok.test {k : Option Bool → Script} (hs : c.script = .test b k)
    (ans : Option Bool) : ({ x with pending := some (c.tested b k ans) } : Proc).Ok := by
  have hf := h.follows c hc
  rw [hs] at hf
  refine ⟨h.sound, h.fd, h.refs, ?_, ?_, ?_⟩
  · rintro c' ⟨⟩
    exact h.fresh c hc
  · rintro o b' (ho | ⟨c', hc', ho, hb⟩)
    · exact h.records o b' (.inl ho)
    · cases hc'
      exact h.records o b' (.inr ⟨c, hc, ho, hb⟩)
  · rintro c' ⟨⟩
    obtain _ | set := ans
    · exact hf.1
    · cases set with
      | true => exact hf.2.1
      | false => exact hf.2.2

theorem Proc.Ok.lock (hs : c.script = .lock b k) (hu : env.Unlocks) : ({ x with
      file := (bandLock env c.fork.eid b c.fork.ref x.file).2
      pending := some (c.locked b k (bandLock env c.fork.eid b c.fork.ref x.file).1) } :
        Proc).Ok := by
  have hf := h.follows c hc
  rw [hs] at hf
  refine ⟨(bandLock_outcome env _ _ _ h.sound.wf).sound env hu h.sound, ?_, h.refs, ?_, ?_, ?_⟩
  · exact ((bandLock_outcome env _ _ _ h.sound.wf).fd env).trans h.fd
  · rintro c' ⟨⟩
    exact h.fresh c hc
  · rintro o b' (ho | ⟨c', hc', ho, hb⟩)
    · exact bandLock_keeps hu _ _ _ h.sound (h.records o b' (.inl ho))
    · cases hc'
      cases ho
      unfold Pending.locked at hb ⊢
      split_ifs at hb with hok
      · rcases mem_cons.mp hb with rfl | hb
        · exact (bandLock_records h.sound.wf hok).1
        · exact bandLock_keeps hu _ _ _ h.sound (h.records c.fork b' (.inr ⟨c, hc, rfl, hb⟩))
      · exact bandLock_keeps hu _ _ _ h.sound (h.records c.fork b' (.inr ⟨c, hc, rfl, hb⟩))
  · rintro c' ⟨⟩
    exact hf.2.2 _

theorem Proc.Ok.opened (hs : c.script = .ret .ok) :
    ({ x with opens := c.fork :: x.opens, pending := none } : Proc).Ok ∧
    ∀ o b, ({ x with opens := c.fork :: x.opens, pending := none } : Proc).Holds o b →
      x.Holds o b := by
  have hholds : ∀ o b, ({ x with opens := c.fork :: x.opens, pending := none } : Proc).Holds o b →
      x.Holds o b := by
    intro o b hh
    have hf := h.follows c hc
    rw [hs] at hf
    rcases hh with ⟨ho, hw⟩ | ⟨c', hc', _⟩
    · rcases mem_cons.mp ho with rfl | ho
      · exact .inr ⟨c, hc, rfl, hf rfl b hw⟩
      · exact .inl ⟨ho, hw⟩
    · cases hc'
  refine ⟨⟨h.sound, h.fd, ?_, ?_, ?_, ?_⟩, hholds⟩
  · intro o ho o' ho' heq
    rcases mem_cons.mp ho with rfl | ho <;> rcases mem_cons.mp ho' with rfl | ho'
    · rfl
    · exact absurd heq.symm (h.fresh c hc o' ho')
    · exact absurd heq (h.fresh c hc o ho)
    · exact h.refs o ho o' ho' heq
  · exact fun c' hc' => by cases hc'
  · exact fun o b hh => h.records o b (hholds o b hh)
  · exact fun c' hc' => by cases hc'

end answers

/-- A process that releases a fork and keeps the slots of the others. -/
theorem Proc.Ok.release (h : x.Ok) (hu : env.Unlocks) {ref : ℤ} {opens : List Fork}
    (hsub : ∀ o ∈ opens, o ∈ x.opens) (hne : ∀ o ∈ opens, o.ref ≠ ref) :
    (⟨adfUnlock env ref x.file, opens, none⟩ : Proc).Ok ∧
    ∀ o b, (⟨adfUnlock env ref x.file, opens, none⟩ : Proc).Holds o b → x.Holds o b := by
  have hopens : ∀ o b, (⟨adfUnlock env ref x.file, opens, none⟩ : Proc).Holds o b →
      o ∈ opens ∧ o.access.wants b = true := by
    rintro o b (hh | ⟨c, hc, _⟩)
    · exact hh
    · cases hc
  have hholds : ∀ o b, (⟨adfUnlock env ref x.file, opens, none⟩ : Proc).Holds o b →
      x.Holds o b := fun o b hh => .inl ⟨hsub o (hopens o b hh).1, (hopens o b hh).2⟩
  refine ⟨⟨adfUnlock_induct env (adfFreelock_sound env hu) h.sound,
    (adfUnlock_fd env ref x.file).trans h.fd, ?_, ?_, ?_, ?_⟩, hholds⟩
  · exact fun o ho o' ho' heq => h.refs o (hsub o ho) o' (hsub o' ho') heq
  · exact fun c hc => by cases hc
  · intro o b hh
    exact adfUnlock_records env (hne o (hopens o b hh).1) h.sound.wf (h.records o b (hholds o b hh))
  · exact fun c hc => by cases hc

omit [DecidableEq P] in
/-- Through a test a call comes to rely on a slot only when nobody holds it. -/
theorem Inv.guarded_tested (h : Inv s) {k : Option Bool → Script} (hc : (s p).pending = some c)
    (hp : Probe s p (bandOff c.fork.eid b) g) :
    Guarded s p (c.tested b k (testlock g (bandOff c.fork.eid b) (s p).file)) := by
  intro b' hb q o hh heid
  obtain ⟨hmem, hrest⟩ := hb
  unfold Pending.tested at hmem heid
  split_ifs at hmem with hfree
  · rcases mem_cons.mp hmem with rfl | hmem
    · -- the test asked every process for the very byte a holder has recorded
      have hr := (h.ok q).records o b' hh
      rw [heid] at hr
      exact absurd hr (testlock_free (fun q => (h.ok q).sound) (fun q => (h.ok q).fd) hp hfree q _)
    · exact h.guard p c hc b' ⟨hmem, hrest⟩ q o hh heid
  · exact h.guard p c hc b' ⟨hmem, hrest⟩ q o hh heid

/-- The lock of a slot adds that slot to what its process holds, and nothing else. -/
theorem holds_locked (hc : x.pending = some c)
    (hh : ({ x with file := f, pending := some (c.locked b k r) } : Proc).Holds o b') :
    x.Holds o b' ∨ (o = c.fork ∧ b' = b) := by
  rcases hh with hh | ⟨c', hc', ho, hb⟩
  · exact .inl (.inl hh)
  · cases hc'
    unfold Pending.locked at hb
    split_ifs at hb
    · rcases mem_cons.mp hb with rfl | hb
      · exact .inr ⟨ho.symm, rfl⟩
      · exact .inl (.inr ⟨c, hc, ho, hb⟩)
    · exact .inl (.inr ⟨c, hc, ho, hb⟩)

theorem reliesOn_of_locked (h : (c.locked b k r).ReliesOn b') : c.ReliesOn b' := by
  obtain ⟨hmem, x, hopp, hw, hx⟩ := h
  refine ⟨hmem, x, hopp, hw, ?_⟩
  intro hin
  apply hx
  unfold Pending.locked
  split_ifs
  · exact mem_cons_of_mem _ hin
  · exact hin

omit [DecidableEq P] in
/-- The slot in the way of one that a call locks next is free but for the call's own fork: the call
has tested it, or it took its slot before. -/
theorem Inv.holder_of_opposite (h : Inv s) (hc : (s p).pending = some c)
    (hs : c.script = .lock b k) {q : P} (hb : b.opposite = some b') (hh : (s q).Holds o b')
    (heid : o.eid = c.fork.eid) : q = p ∧ o = c.fork := by
  have hf := (h.ok p).follows c hc
  rw [hs] at hf
  by_cases hb' : b ∈ c.taken
  · exact h.excl q p o c.fork b' b hh (.inr ⟨c, hc, rfl, hb'⟩) (Band.opposite_symm hb) heid
  · exact h.guard p c hc b' ⟨hf.2.1 b' hb, b, Band.opposite_symm hb, hf.1, hb'⟩ q o hh heid

/-- The lock of a slot, where no other process's call relies on the slot. -/
theorem Inv.lock (h : Inv s) (hc : (s p).pending = some c) (hs : c.script = .lock b k)
    (hk : Kernel s p env) (hu : Undisturbed s (.lock p b)) :
    Inv (Function.update s p { s p with
      file := (bandLock env c.fork.eid b c.fork.ref (s p).file).2
      pending := some (c.locked b k (bandLock env c.fork.eid b c.fork.ref (s p).file).1) }) := by
  have hok := (h.ok p).lock hc hs hk.unlocks
  generalize hx : ({ s p with
      file := (bandLock env c.fork.eid b c.fork.ref (s p).file).2
      pending := some (c.locked b k (bandLock env c.fork.eid b c.fork.ref (s p).file).1) } :
        Proc) = x at hok ⊢
  have new : ∀ q o b', (Function.update s p x q).Holds o b' →
      (s q).Holds o b' ∨ (q = p ∧ o = c.fork ∧ b' = b) := by
    intro q o b' hh
    by_cases hq : q = p
    · subst hq
      rw [update_self, ← hx] at hh
      exact (holds_locked hc hh).imp_right fun e => ⟨rfl, e⟩
    · rw [update_of_ne hq] at hh
      exact .inl hh
  refine ⟨?_, ?_, ?_⟩
  · intro q
    by_cases hq : q = p
    · subst hq
      rw [update_self]
      exact hok
    · rw [update_of_ne hq]
      exact h.ok q
  · intro q d hd b' hb r o hh heid
    by_cases hq : q = p
    · subst hq
      rw [update_self, ← hx] at hd
      cases hd
      rcases new r o b' hh with hh | ⟨hr, ho, _⟩
      · exact h.guard q c hc b' (reliesOn_of_locked hb) r o hh heid
      · exact ⟨hr, ho⟩
    · rw [update_of_ne hq] at hd
      rcases new r o b' hh with hh | ⟨_, ho, hbb⟩
      · exact h.guard q d hd b' hb r o hh heid
      · rw [hbb] at hb
        rw [ho] at heid
        exact absurd hb (hu c hc q hq d hd heid.symm)
  · intro q r o o' b₁ b₂ hh hh' hopp heid
    rcases new q o b₁ hh with h₁ | ⟨hq, ho, hb⟩ <;> rcases new r o' b₂ hh' with h₂ | ⟨hr, ho', hb'⟩
    · exact h.excl q r o o' b₁ b₂ h₁ h₂ hopp heid
    · rw [hr, ho']
      rw [hb'] at hopp
      rw [ho'] at heid
      exact h.holder_of_opposite hc hs (Band.opposite_symm hopp) h₁ heid
    · rw [hb] at hopp
      rw [ho] at heid ⊢
      obtain ⟨hr, ho'⟩ := h.holder_of_opposite hc hs hopp h₂ heid.symm
      exact ⟨hq.trans hr.symm, ho'.symm⟩
    · exact ⟨hq.trans hr.symm, ho.trans ho'.symm⟩

theorem Inv.step {s s' : P → Proc} {a : Act P} (h : Inv s) (hs : Step s a s')
    (hu : Undisturbed s a) : Inv s' := by
  cases hs with
  | call p o hidle href =>
    refine h.update ((h.ok p).call href) ?_ ?_
    · rintro o' b (ho | ⟨c, hc, _, hb⟩)
      · exact .inl ho
      · cases hc
        cases hb
    · intro c hc b hb
      cases hc
      cases hb.1
  | test p c b k g hc hs hp =>
    refine h.update ((h.ok p).test hc hs _) ?_ ?_
    · rintro o b' (ho | ⟨c', hc', ho, hb⟩)
      · exact .inl ho
      · cases hc'
        exact .inr ⟨c, hc, ho, hb⟩
    · rintro c' ⟨⟩
      exact h.guarded_tested hc hp
  | lock p c b k env hc hs hk => exact h.lock hc hs hk hu
  | opened p c hc hs =>
    obtain ⟨hok, hholds⟩ := (h.ok p).opened hc hs
    exact h.update hok hholds fun c' hc' => by cases hc'
  | failed p c r env hc hs hr hk =>
    obtain ⟨hok, hholds⟩ := (h.ok p).release hk.unlocks (fun o ho => ho) ((h.ok p).fresh c hc)
    exact h.update hok hholds fun c' hc' => by cases hc'
  | close p o env hidle ho hk =>
    have hne : ∀ o' ∈ (s p).opens.filter (·.ref ≠ o.ref), o'.ref ≠ o.ref := fun o' ho' => by
      simpa using (mem_filter.mp ho').2
    obtain ⟨hok, hholds⟩ := (h.ok p).release hk.unlocks
      (fun o' ho' => mem_of_mem_filter ho') hne
    simp only [hidle]
    exact h.update hok hholds fun c' hc' => by cases hc'

/-- Along every run in which no process locks a slot between another one's test of it and the
lock that rests on that test, no two completed opens of one fork are in each other's way. -/
theorem exclusive_of_undisturbedRun {s s' : P → Proc} (hstart : Start s)
    (hrun : UndisturbedRun s s') : Exclusive s' := by
  have hinv : Inv s' := by
    induction hrun with
    | refl => exact Inv.start hstart
    | tail _ hstep ih =>
      obtain ⟨a, hs, hu⟩ := hstep
      exact ih.step hs hu
  exact hinv.exclusive

/-! ### Two opens that cross -/

/-- A fork opened for reading, and one that denies it. -/
def reader : Fork := ⟨1, .dfork, ⟨true, false, false, false⟩⟩
def denier : Fork := ⟨1, .dfork, ⟨false, false, true, false⟩⟩

/-- A kernel that grants read locks and releases. -/
def readLocks : Env := ⟨fun _ r => r.lType = .wrlck, fun _ => false⟩

omit [DecidableEq P] in
theorem kernel_readLocks (h : ∀ q, q ≠ p → ∀ b, (s q).file.held b ≠ .wr) :
    Kernel s p readLocks := by
  constructor
  · intro n r b q hq _ _ hconf
    cases hty : r.lType with
    | rdlck =>
      rw [hty] at hconf
      exact absurd hconf (h q hq b)
    | wrlck => simp [readLocks, hty]
    | unlck =>
      rw [hty] at hconf
      exact hconf.elim
  · intro n r hr
    simp [readLocks, hr]

theorem set_rd_ne_wr (lo hi b : ℤ) : LockMap.empty.set lo hi .rd b ≠ .wr := by
  unfold LockMap.set LockMap.empty
  split_ifs <;> simp

theorem forall_other {R : Bool → Prop} {p : Bool} (h : R (!p)) (q : Bool) (hq : q ≠ p) : R q := by
  rw [Bool.eq_not.mpr hq]
  exact h

/-- Two processes that open the fork for reading, one after the other. -/
theorem exclusive_of_undisturbedRun_readers : ∃ s' : Bool → Proc,
    UndisturbedRun (fun _ => .fresh true) s' ∧ reader ∈ (s' false).opens ∧
    reader ∈ (s' true).opens ∧ Exclusive s' := by
  have hrun : ∃ s' : Bool → Proc, UndisturbedRun (fun _ => .fresh true) s' ∧
      reader ∈ (s' false).opens ∧ reader ∈ (s' true).opens := by
    refine ⟨_, .tail (.tail (.tail (.tail (.tail (.tail (.tail (.tail .refl
      ⟨_, .call false reader rfl (by intro o ho; cases ho), trivial⟩)
      ⟨_, .test false _ _ _ .unlck rfl rfl ?_, trivial⟩)
      ⟨_, .lock false _ _ _ readLocks rfl rfl (kernel_readLocks ?_), ?_⟩)
      ⟨_, .opened false _ rfl rfl, trivial⟩)
      ⟨_, .call true reader rfl (by intro o ho; cases ho), trivial⟩)
      ⟨_, .test true _ _ _ .unlck rfl rfl ?_, trivial⟩)
      ⟨_, .lock true _ _ _ readLocks rfl rfl (kernel_readLocks ?_), ?_⟩)
      ⟨_, .opened true _ rfl rfl, trivial⟩, .head _, .head _⟩
    · exact forall_other rfl
    · exact forall_other fun b hb => by cases hb
    · exact fun c _ => forall_other fun d hd => by cases hd
    · exact forall_other rfl
    · exact forall_other (set_rd_ne_wr _ _)
    · exact fun c _ => forall_other fun d hd => by cases hd
  obtain ⟨s', hr, h₁, h₂⟩ := hrun
  exact ⟨s', hr, h₁, h₂, exclusive_of_undisturbedRun (fun _ => ⟨true, rfl⟩) hr⟩

/-- A reader and a process that denies reading each make their tests before either has locked:
both opens complete. -/
theorem crossed_opens_not_exclusive :
    ∃ s s' : Bool → Proc, Start s ∧ Run s s' ∧ ¬ Exclusive s' := by
  have hrun : ∃ s' : Bool → Proc, Run (fun _ => .fresh true) s' ∧
      reader ∈ (s' false).opens ∧ denier ∈ (s' true).opens := by
    refine ⟨_, .tail (.tail (.tail (.tail (.tail (.tail (.tail (.tail (.tail .refl
      ⟨_, .call false reader rfl (by intro o ho; cases ho)⟩)
      ⟨_, .test false _ _ _ .unlck rfl rfl ?_⟩)
      ⟨_, .call true denier rfl (by intro o ho; cases ho)⟩)
      ⟨_, .test true _ _ _ .unlck rfl rfl ?_⟩)
      ⟨_, .test true _ _ _ .unlck rfl rfl ?_⟩)
      ⟨_, .lock false _ _ _ readLocks rfl rfl (kernel_readLocks ?_)⟩)
      ⟨_, .opened false _ rfl rfl⟩)
      ⟨_, .lock true _ _ _ readLocks rfl rfl (kernel_readLocks ?_)⟩)
      ⟨_, .opened true _ rfl rfl⟩, .head _, .head _⟩
    · exact forall_other rfl
    · exact forall_other rfl
    · exact forall_other rfl
    · exact forall_other fun b hb => by cases hb
    · exact forall_other (set_rd_ne_wr _ _)
  obtain ⟨s', hr, h₁, h₂⟩ := hrun
  refine ⟨_, s', fun _ => ⟨true, rfl⟩, hr, ?_⟩
  intro h
  exact (h false true reader h₁ denier h₂ rfl (.inl (by decide))).1 ⟨rfl, rfl⟩

end Netatalk.ShareMode
