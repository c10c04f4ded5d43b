import Netatalk.ArcCacheBounds

/-! # The ARC cache over whole runs

The lists stay within the bounds of the policy, so the hash insertions of `dircache_add` always
find room (`reachable_bounds`).

The debug check `arc_verify_invariants` asserts `|B1| + |B2| ≤ c` after every operation.  A run
keeps it up to the first insertion that overfills the ghost lists, and that insertion breaks it
(`verify_until_overfill`).  Such insertions happen: with T2 and B2 filled to capacity, one
removal and two insertions send an entry of T1 to an empty B1 beside a full B2
(`overfill_reachable`). -/

namespace Netatalk.Dircache

open List Function

/-! ### Runs that fill the cache -/

theorem Reachable.mono {c : ℕ} {ok ok' : Arc → Op → Prop} {s : Arc}
    (hok : ∀ s op, ok s op → ok' s op) (hr : Reachable c ok s) : Reachable c ok' s := by
  induction hr with
  | init dir => exact .init dir
  | step op _ hl ho he ih => exact .step op ih hl (hok _ op ho) he


/-- The record of a directory inside the one before; the first is inside the volume root. -/
def nested (n : ℕ) : Dir := ⟨1, n + 17, if n = 0 then 2 else n + 16, [100], false, false, none⟩

/-- A state reached by adding the first `n` nested directories and hitting or removing them. -/
structure Chain (c n : ℕ) (s : Arc) : Prop where
  reach : Reachable c (fun s op => ¬ op.Overfills s) s
  p : s.p = 0
  curdir : s.curdir = none
  keys : ∀ y : ℕ, y ∈ s.dircache → y < n ∧ (s.dir y).did = y + 17 ∧
    (s.dir y).pdid = (nested y).pdid

/-- The state with the record of the next directory filled in. -/
def withNext (n : ℕ) (s : Arc) : Arc := { s with dir := update s.dir n (nested n) }

theorem find?_key_none {s : Arc} {n : ℕ} {t : List Ptr} {p : Dir → Bool}
    (ht : ∀ y, y ∈ t → y ≠ n ∧ p (s.dir y) = false) :
    t.find? (fun y => p ((withNext n s).dir y)) = none := by
  rw [find?_eq_none]
  intro y hy
  obtain ⟨hyn, hp⟩ := ht y hy
  simp [withNext, update_of_ne hyn, hp]

section chain
variable {c n : ℕ} {s : Arc} (hc : 2 ≤ c) (h : Chain c n s)
include hc h

theorem Chain.addExpunge : addExpunge n (nested n) s = (false, withNext n s) := by
  have hi := (h.reach.inv hc).1
  have h₁ : (withNext n s).lookupDid (nested n) = none := by
    apply find?_key_none (p := fun d => d.vid = (nested n).vid && d.did = (nested n).did)
    intro y hy
    obtain ⟨hlt, hdid, _⟩ := h.keys y hy
    refine ⟨Nat.ne_of_lt hlt, ?_⟩
    simp only [nested, hdid, Bool.and_eq_false_imp, decide_eq_false_iff_not]
    omega
  have h₂ : (withNext n s).lookupDidname (nested n) = none := by
    apply find?_key_none (p := fun d => d.vid = (nested n).vid && d.pdid = (nested n).pdid &&
      d.uName = (nested n).uName)
    intro y hy
    have hy' : y ∈ s.dircache := (hi.consistent.dircache y).mpr ((hi.consistent.didname y).mp hy)
    obtain ⟨hlt, _, hpdid⟩ := h.keys y hy'
    refine ⟨Nat.ne_of_lt hlt, ?_⟩
    simp [nested, hpdid]
    split_ifs <;> omega
  change dircacheExpungeDuplicate
    ((dircacheExpungeDuplicate ((withNext n s).lookupDid (nested n))
        (false, withNext n s)).2.lookupDidname (nested n))
      (dircacheExpungeDuplicate ((withNext n s).lookupDid (nested n)) (false, withNext n s)) = _
  rw [h₁]
  change dircacheExpungeDuplicate ((withNext n s).lookupDidname (nested n))
    (false, withNext n s) = _
  rw [h₂]
  rfl

omit hc in
theorem Chain.not_mem : n ∉ s.dircache := by
  intro hn
  exact Nat.lt_irrefl n (h.keys n hn).1

omit hc in
/-- A step that keeps what it leaves indexed. -/
theorem Chain.kept {s' : Arc} {op : Op} (hk : Kept s s') (hop : op.Legal s)
    (hno : ¬ op.Overfills s) (he : exec s op = some s') : Chain c n s' := by
  refine ⟨h.reach.step op hop hno he, hk.p.trans h.p, hk.curdir.trans h.curdir, ?_⟩
  intro y hy
  obtain ⟨hlt, hdid, hpdid⟩ := h.keys y (hk.indexed y hy)
  have hk₁ := hk.keys y (.inl hy)
  exact ⟨hlt, hk₁.did.trans hdid, hk₁.pdid.trans hpdid⟩

theorem Chain.victim (l : ArcList) : (s.victim l).isSome = true ↔ 0 < s.size l := by
  have hi := (h.reach.inv hc).1
  rw [hi.consistent.size]
  constructor
  · intro hv
    obtain ⟨v, hv⟩ := Option.isSome_iff_exists.mp hv
    exact length_pos_of_mem (victim_some hv).1
  · intro hpos
    by_contra hv
    rcases victim_none hi.consistent (Option.not_isSome_iff_eq_none.mp hv) with he | ⟨x, _, hx⟩
    · simp [he] at hpos
    · rw [h.curdir] at hx
      cases hx

/-- With T1 empty, nothing is evicted from it. -/
theorem Chain.not_evictsT1 (ht₁ : s.size .t1 = 0) : (withNext n s).evictsT1 false = false := by
  have hv : (s.victim .t1).isSome = false := by
    rw [← Bool.not_eq_true, h.victim hc]
    omega
  exact Bool.and_eq_false_iff.mpr (.inr hv)

/-- Adding the next directory. -/
theorem Chain.add (ht₁ : s.size .t1 = 0) : ∃ s', Chain c (n + 1) s' ∧
    exec s (.add n (nested n)) = some s' ∧ n ∈ s'.queue .t1 ∧
    s'.size .t1 = (arcCaseIvMakeRoom (withNext n s)).size .t1 + 1 ∧
    ∀ l, l ≠ .t1 → s'.size l = (arcCaseIvMakeRoom (withNext n s)).size l := by
  have hi := (h.reach.inv hc).1
  obtain ⟨s', ha⟩ := dircacheAdd_spec hi h.not_mem (nested n)
  have hroom : addRoom n (nested n) s = arcCaseIvMakeRoom (withNext n s) := by
    unfold addRoom
    rw [h.addExpunge hc]
  have hk : Kept (withNext n s) (arcCaseIvMakeRoom (withNext n s)) := by
    have := ha.roomy.kept
    rw [h.addExpunge hc, hroom] at this
    exact this
  have hsz₁ := ha.size_t1
  have hsz := ha.size_other
  have hp := ha.p
  have hcur := ha.curdir (by rw [h.addExpunge hc])
  have hdc := ha.dircache
  have hkeys := ha.keys
  rw [hroom] at hsz₁ hsz hp hcur hdc hkeys
  refine ⟨s', ⟨?_, ?_, ?_, ?_⟩, ha.exec, ha.queued, hsz₁, hsz⟩
  · refine h.reach.step (.add n (nested n)) h.not_mem ?_ ha.exec
    change ¬ (Dircache.addExpunge n (nested n) s).2.Overfills
    rw [h.addExpunge hc]
    rintro ⟨_, _, _, hev⟩
    rw [h.not_evictsT1 hc ht₁] at hev
    cases hev
  · exact hp.trans (hk.p.trans h.p)
  · exact hcur.trans (hk.curdir.trans h.curdir)
  · intro y hy
    rw [hdc] at hy
    rcases mem_cons.mp hy with rfl | hy
    · have hk₁ := (hk.keys y (.inr fun hy => h.not_mem hy)).trans (hkeys y)
      refine ⟨by omega, hk₁.did.trans ?_, hk₁.pdid.trans ?_⟩ <;> simp [withNext, nested]
    · have hy' := hk.indexed y hy
      obtain ⟨hlt, hdid, hpdid⟩ := h.keys y hy'
      have hk₁ := (hk.keys y (.inl hy)).trans (hkeys y)
      have hyn : (withNext n s).dir y = s.dir y := update_of_ne (Nat.ne_of_lt hlt) _ _
      rw [hyn] at hk₁
      exact ⟨by omega, hk₁.did.trans hdid, hk₁.pdid.trans hpdid⟩

/-- A hit in T1. -/
theorem Chain.hit {x : Ptr} (hx : x ∈ s.queue .t1) : ∃ s', Chain c n s' ∧
    exec s (.promote x) = some s' ∧ s'.size .t1 + 1 = s.size .t1 ∧
    s'.size .t2 = s.size .t2 + 1 ∧ s'.size .b1 = s.size .b1 ∧ s'.size .b2 = s.size .b2 := by
  have hi := (h.reach.inv hc).1
  have hl := hi.consistent.listed _ x hx
  have hmem : x ∈ s.dircache := (hi.consistent.dircache x).mpr ⟨_, hx⟩
  obtain ⟨_, hk, _⟩ := arcCaseI_spec hi.consistent (.inl hx)
  have hpos := hi.consistent.size_pos hx
  have he : exec s (.promote x) = some (arcCaseI x s) := by
    simp [exec, dircachePromote, hl]
  have hm : arcCaseI x s = migrate x .t1 .t2 s := if_pos hl
  refine ⟨arcCaseI x s, @Chain.kept _ _ _ h _ (.promote x) hk hmem id he, he, ?_⟩
  rw [hm]
  exact ⟨Nat.sub_add_cancel hpos, rfl, rfl, rfl⟩

/-- A removal from T2. -/
theorem Chain.remove {x : Ptr} (hx : x ∈ s.queue .t2) : ∃ s', Chain c n s' ∧
    s'.size .t1 = s.size .t1 ∧ s'.size .t2 + 1 = s.size .t2 ∧ s'.size .b1 = s.size .b1 ∧
    s'.size .b2 = s.size .b2 := by
  have hi := (h.reach.inv hc).1
  have hl := hi.consistent.listed _ x hx
  obtain ⟨_, hk, _⟩ := dircacheRemove_spec hi.consistent
  have hpos := hi.consistent.size_pos hx
  have hsz : (dircacheRemove x s).size = (unqueue .t2 x s).size := by
    unfold dircacheRemove
    rw [if_pos ((queued_iff).mpr ⟨_, hx⟩), hl]
    rfl
  refine ⟨dircacheRemove x s, @Chain.kept _ _ _ h _ (.remove x) hk trivial id rfl, ?_⟩
  rw [hsz]
  exact ⟨rfl, Nat.sub_add_cancel hpos, rfl, rfl⟩

end chain

theorem makeRoom_below {s : Arc} (hlt : s.size .t1 + s.size .b1 + (s.size .t2 + s.size .b2) < s.c) :
    arcCaseIvMakeRoom s = s := by
  unfold arcCaseIvMakeRoom
  rw [if_neg (by omega), if_neg (by omega)]

/-- Between capacity and twice the capacity, making room is REPLACE. -/
theorem makeRoom_replace {s : Arc} (hl : s.size .t1 + s.size .b1 < s.c)
    (hge : s.c ≤ s.size .t1 + s.size .b1 + (s.size .t2 + s.size .b2))
    (hne : s.size .t1 + s.size .b1 + (s.size .t2 + s.size .b2) ≠ 2 * s.c) :
    arcCaseIvMakeRoom s = (arcReplace false s).2 := by
  unfold arcCaseIvMakeRoom
  rw [if_neg (by omega), if_pos (by omega), if_neg hne]

section filling
variable {c n : ℕ} {s : Arc} (hc : 3 ≤ c) (h : Chain c n s)
include hc h

section
variable (ht₁ : s.size .t1 = 0) (hb₁ : s.size .b1 = 0)
include ht₁ hb₁

/-- With T1 empty, an insertion into a full cache evicts from T2. -/
theorem Chain.add_evictsT2 (ht₂ : 2 ≤ s.size .t2) (hge : c ≤ s.size .t2 + s.size .b2)
    (hlt : s.size .t2 + s.size .b2 < 2 * c) :
    ∃ s', Chain c (n + 1) s' ∧ exec s (.add n (nested n)) = some s' ∧ n ∈ s'.queue .t1 ∧
      s'.size .t1 = 1 ∧ s'.size .t2 + 1 = s.size .t2 ∧ s'.size .b1 = 0 ∧
      s'.size .b2 = if s.size .b2 < c then s.size .b2 + 1 else s.size .b2 := by
  obtain ⟨hi, hcap⟩ := h.reach.inv (by omega)
  have hi₀ : Consistent (withNext n s) := by
    have := (addExpunge_spec hi h.not_mem (nested n)).1.consistent
    rw [h.addExpunge (by omega)] at this
    exact this
  obtain ⟨s', hch, he, hq, hsz₁, hsz⟩ := h.add (by omega) ht₁
  have hroom : arcCaseIvMakeRoom (withNext n s) = (arcReplace false (withNext n s)).2 :=
    makeRoom_replace (s := withNext n s)
      (show s.size .t1 + s.size .b1 < s.c by omega)
      (show s.c ≤ s.size .t1 + s.size .b1 + (s.size .t2 + s.size .b2) by omega)
      (show s.size .t1 + s.size .b1 + (s.size .t2 + s.size .b2) ≠ 2 * s.c by omega)
  rw [hroom] at hsz₁ hsz
  have h₂ := hsz .t2 (by decide)
  have h₃ := hsz .b1 (by decide)
  have h₄ := hsz .b2 (by decide)
  rcases arcReplace_cases hi₀ false with ⟨hev, _⟩ | ⟨_, e⟩ | ⟨_, _, hle⟩
  · rw [h.not_evictsT1 (by omega) ht₁] at hev
    cases hev
  · have e₁ : (arcReplace false (withNext n s)).2.size .t2 + 1 = s.size .t2 := e.sizes_t2.1
    have e₂ : (arcReplace false (withNext n s)).2.size .t1 = s.size .t1 := e.sizes_t2.2.1
    have e₃ : _ = s.size .b2 + 1 := e.sizes_t2.2.2.1
    have e₄ : (arcReplace false (withNext n s)).2.size .b1 = s.size .b1 := e.sizes_t2.2.2.2
    have ht : _ ↔ s.c ≤ s.size .b1 + s.size .b2 ∧ 0 < s.size .b2 := trims_iff hi₀ hi.idle .b2
    refine ⟨s', hch, he, hq, by omega, by omega, by omega, ?_⟩
    split_ifs at e₃ with htrim
    · have := ht.mp htrim
      rw [if_neg (by omega)]
      omega
    · have := mt ht.mpr htrim
      rw [if_pos (by omega)]
      omega
  · change s.size .t1 + s.size .t2 ≤ 1 at hle
    omega

/-- While the cache is below capacity, adding a directory and hitting it grows T2. -/
theorem Chain.grow (hlt : s.size .t2 + s.size .b2 < c) :
    ∃ s₁ s', exec s (.add n (nested n)) = some s₁ ∧ n ∈ s₁.dircache ∧
      exec s₁ (.promote n) = some s' ∧ Chain c (n + 1) s' ∧ s'.size .t1 = 0 ∧ s'.size .b1 = 0 ∧
      s'.size .t2 = s.size .t2 + 1 ∧ s'.size .b2 = s.size .b2 := by
  obtain ⟨_, hcap⟩ := h.reach.inv (by omega)
  obtain ⟨s₁, h₁, he₁, hq, hsz₁, hsz⟩ := h.add (by omega) ht₁
  have hmem : n ∈ s₁.dircache :=
    ((h₁.reach.inv (by omega)).1.consistent.dircache n).mpr ⟨_, hq⟩
  rw [makeRoom_below (s := withNext n s)
    (show s.size .t1 + s.size .b1 + (s.size .t2 + s.size .b2) < s.c by omega)] at hsz₁ hsz
  change s₁.size .t1 = s.size .t1 + 1 at hsz₁
  have hs₂ : s₁.size .t2 = s.size .t2 := hsz .t2 (by decide)
  have hs₃ : s₁.size .b1 = s.size .b1 := hsz .b1 (by decide)
  have hs₄ : s₁.size .b2 = s.size .b2 := hsz .b2 (by decide)
  obtain ⟨s', h', he', e₁, e₂, e₃, e₄⟩ := h₁.hit (by omega) hq
  exact ⟨s₁, s', he₁, hmem, he', h', by omega, by omega, by omega, by omega⟩

/-- At capacity, adding a directory and hitting it moves an entry from T2 to B2. -/
theorem Chain.turn (ht₂ : s.size .t2 = c) (hb₂ : s.size .b2 < c) :
    ∃ s', Chain c (n + 1) s' ∧ s'.size .t1 = 0 ∧ s'.size .b1 = 0 ∧ s'.size .t2 = c ∧
      s'.size .b2 = s.size .b2 + 1 := by
  obtain ⟨s₁, h₁, _, hq, hs₁, hs₂, hs₃, hs₄⟩ :=
    h.add_evictsT2 hc ht₁ hb₁ (by omega) (by omega) (by omega)
  rw [if_pos hb₂] at hs₄
  obtain ⟨s', h', _, e₁, e₂, e₃, e₄⟩ := h₁.hit (by omega) hq
  exact ⟨s', h', by omega, by omega, by omega, by omega⟩

end

end filling

/-- Adding and hitting directories one by one fills T2, and then B2. -/
theorem chain_fill {c : ℕ} (hc : 3 ≤ c) {n : ℕ} (hn : n ≤ 2 * c) :
    ∃ s, Chain c n s ∧ s.size .t1 = 0 ∧ s.size .b1 = 0 ∧ s.size .t2 = min n c ∧
      s.size .b2 = n - c := by
  induction n with
  | zero =>
    refine ⟨arcInit c nested, ⟨.init nested, rfl, rfl, ?_⟩, rfl, rfl, ?_, ?_⟩
    · rintro y ⟨⟩
    · simp [arcInit]
    · simp [arcInit]
  | succ n ih =>
    obtain ⟨s, h, ht₁, hb₁, ht₂, hb₂⟩ := ih (by omega)
    by_cases hlt : n < c
    · obtain ⟨_, s', _, _, _, h', e₁, e₂, e₃, e₄⟩ := h.grow hc ht₁ hb₁ (by omega)
      exact ⟨s', h', e₁, e₂, by omega, by omega⟩
    · obtain ⟨s', h', e₁, e₂, e₃, e₄⟩ := h.turn hc ht₁ hb₁ (by omega) (by omega)
      exact ⟨s', h', e₁, e₂, by omega, by omega⟩

/-! ### The bounds and the check -/

/-- In every state that operations lead to, the four lists and the target are within the bounds of
the policy, and an insertion reaches its hash insertions with fewer than `2 * c` entries in the
lists and in each table, so that no assertion fires. -/
theorem reachable_bounds {c : ℕ} (hc : 1024 ≤ c) {s : Arc} (hr : Reachable c (fun _ _ => True) s) :
    (s.size .t1 + s.size .t2 ≤ c ∧ s.size .t1 + s.size .b1 ≤ c ∧
      s.size .t1 + s.size .t2 + s.size .b1 + s.size .b2 ≤ 2 * c ∧ s.p ≤ c) ∧
    (∀ l, s.size l = (s.queue l).length) ∧
    ∀ x d, x ∉ s.dircache →
      (addRoom x d s).size .t1 + (addRoom x d s).size .t2 + (addRoom x d s).size .b1 +
        (addRoom x d s).size .b2 < 2 * c ∧
      (addRoom x d s).dircache.length < 2 * c ∧ (addRoom x d s).indexDidname.length < 2 * c ∧
      (dircacheAdd x d s).isSome = true := by
  obtain ⟨h, hcap⟩ := hr.inv (by omega)
  obtain ⟨hcached, hleft, htotal, htarget⟩ := h.bounds
  rw [hcap] at hcached hleft htotal htarget
  refine ⟨⟨hcached, hleft, htotal, htarget⟩, h.consistent.size, ?_⟩
  intro x d hx
  obtain ⟨s', ha⟩ := dircacheAdd_spec h hx d
  have hr := ha.roomy
  have htotal₁ := hr.total
  have hcap₁ := (addExpunge_spec h hx d).2.1
  have hlen₁ := hr.consistent.length_table hr.consistent.nodupDircache hr.consistent.dircache
  have hlen₂ := hr.consistent.length_table hr.consistent.nodupDidname hr.consistent.didname
  rw [ha.exec]
  exact ⟨by omega, by omega, by omega, rfl⟩

/-- At the smallest capacity, with T2 and B2 full. -/
theorem reachable_bounds_full : ∃ s, Reachable 1024 (fun _ _ => True) s ∧ s.size .t2 = 1024 ∧
    s.size .b2 = 1024 ∧ s.size .t1 + s.size .t2 ≤ 1024 ∧ s.size .t1 + s.size .b1 ≤ 1024 ∧
    s.size .t1 + s.size .t2 + s.size .b1 + s.size .b2 ≤ 2 * 1024 ∧ s.p ≤ 1024 := by
  obtain ⟨s, h, _, _, ht₂, hb₂⟩ := chain_fill (c := 1024) (by omega) (Nat.le_refl (2 * 1024))
  have hr : Reachable 1024 (fun _ _ => True) s := h.reach.mono fun _ _ _ => trivial
  exact ⟨s, hr, by omega, by omega, (reachable_bounds (Nat.le_refl 1024) hr).1⟩

/-- As long as no insertion overfills the ghost lists, the check passes after every operation; the
next operation fails it exactly if it overfills them. -/
theorem verify_until_overfill {c : ℕ} (hc : 1024 ≤ c) {s : Arc}
    (hr : Reachable c (fun s op => ¬ op.Overfills s) s) :
    ArcVerifyInvariants s ∧ ∀ op : Op, op.Legal s →
      ∃ s', exec s op = some s' ∧ (ArcVerifyInvariants s' ↔ ¬ op.Overfills s) := by
  have hfit : s.GhostsFit := by
    induction hr with
    | init => simp [Arc.GhostsFit, arcInit]
    | step op hr hl hok he ih =>
      obtain ⟨s', he', _, _, hg⟩ := exec_spec (hr.inv (by omega)).1 hl
      rw [he'] at he
      cases he
      exact (hg ih).mpr hok
  have h := (hr.inv (by omega)).1
  refine ⟨h.verify_iff.mpr hfit, ?_⟩
  intro op hl
  obtain ⟨s', he, hi, _, hg⟩ := exec_spec h hl
  exact ⟨s', he, hi.verify_iff.trans (hg hfit)⟩

/-- After as many insertions and hits. -/
theorem verify_until_overfill_full : ∃ s, s.size .t2 = 1024 ∧ s.size .b2 = 1024 ∧
    ArcVerifyInvariants s ∧ ∀ op : Op, op.Legal s → ∃ s', exec s op = some s' ∧
      (ArcVerifyInvariants s' ↔ ¬ op.Overfills s) := by
  obtain ⟨s, h, _, _, ht₂, hb₂⟩ := chain_fill (c := 1024) (by omega) (Nat.le_refl (2 * 1024))
  exact ⟨s, by omega, by omega, verify_until_overfill (Nat.le_refl 1024) h.reach⟩

/-! ### A run that overfills the ghost lists -/

theorem chain_overfill {c : ℕ} (hc : 3 ≤ c) :
    ∃ s, Reachable c (fun _ _ => True) s ∧ s.c < s.size .b1 + s.size .b2 := by
  obtain ⟨s₀, h₀, ht₁, hb₁, ht₂, hb₂⟩ := chain_fill hc (n := 2 * c) (by omega)
  have hi₀ := (h₀.reach.inv (by omega)).1
  obtain ⟨x, hx⟩ := exists_mem_of_length_pos
    (show 0 < (s₀.queue .t2).length by rw [← hi₀.consistent.size]; omega)
  obtain ⟨s₁, h₁, e₁, e₂, e₃, e₄⟩ := h₀.remove (by omega) hx
  obtain ⟨s₂, h₂, _, _, f₁, f₂, f₃, f₄⟩ := h₁.add_evictsT2 hc (by omega) (by omega) (by omega)
    (by omega) (by omega)
  rw [if_neg (by omega)] at f₄
  -- T1 holds one entry and the target is 0, so the next insertion evicts it
  obtain ⟨hi₂, hcap⟩ := h₂.reach.inv (by omega)
  have hev : s₂.evictsT1 false = true := by
    unfold Arc.evictsT1 Arc.tryT1First
    rw [(h₂.victim (by omega) .t1).mpr (by omega), h₂.p, f₁]
    rfl
  have hover : (addExpunge (2 * c + 1) (nested (2 * c + 1)) s₂).2.Overfills := by
    rw [h₂.addExpunge (by omega)]
    refine ⟨f₃, ?_, ?_, hev⟩
    · change s₂.size .b2 = s₂.c
      omega
    · change s₂.size .t1 + s₂.size .t2 < s₂.c
      omega
  obtain ⟨s₃, ha⟩ := dircacheAdd_spec hi₂ h₂.not_mem (nested (2 * c + 1))
  have hfit : s₂.GhostsFit := by
    unfold Arc.GhostsFit
    omega
  refine ⟨s₃, (h₂.reach.mono fun _ _ _ => trivial).step (.add _ _) h₂.not_mem trivial ha.exec, ?_⟩
  have hno := mt (ha.ghosts hfit).mp (not_not.mpr hover)
  unfold Arc.GhostsFit at hno
  omega

/-- At the smallest capacity a run of insertions, hits and one removal fails the check. -/
theorem overfill_reachable : ∃ s, Reachable 1024 (fun _ _ => True) s ∧
    s.c < s.size .b1 + s.size .b2 ∧ ¬ ArcVerifyInvariants s := by
  obtain ⟨s, hr, hlt⟩ := chain_overfill (c := 1024) (by omega)
  refine ⟨s, hr, hlt, ?_⟩
  rw [(hr.inv (by omega)).1.verify_iff]
  unfold Arc.GhostsFit
  omega

end Netatalk.Dircache
