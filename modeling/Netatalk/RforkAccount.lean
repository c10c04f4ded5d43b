import Netatalk.RforkCache

/-! # The accounts of the resource fork cache

`rfork_cache_used` is to be the sum of the sizes of the buffers, the LRU list to have the entries
with a buffer, and `dcache_rlen` of such an entry to be the size of its buffer.  Each operation
keeps that, except for one kind of step: `ad_store_to_cache` on an entry that has a buffer gives it
the length it finds on disk.  `ad_metadata_cached` gets there when its own stat fails, and a rename
does when the entry's inode and the second of its ctime have not changed. -/

namespace Netatalk.RforkCache

open Function

/-! ### The accounts -/

/-- The sizes of the buffers. -/
def State.sizes (s : State) (p : ℕ) : Option ℕ := (s.dirs p).buf

/-- The accounts are right, and within the budget. -/
structure Accounted (limits : Limits) (s : State) : Prop where
  balanced : Balanced s.sizes s.lru s.used
  rlen : ∀ p n, (s.dirs p).buf = some n → (s.dirs p).rlen = n
  budget : s.used ≤ limits.budget

/-- In addition an entry knows whether it is in the list. -/
structure Inv (limits : Limits) (s : State) : Prop extends Accounted limits s where
  node : ∀ p, (s.dirs p).lruNode = (s.dirs p).buf.isSome

variable {limits : Limits} {s : State} {p : ℕ}

variable {budget n needed q : ℕ} {dir : Option ℕ} {env : MetadataEnv} {g : Dir → Dir}
  {recent : Option Stat} {strict : Bool}

/-- One entry has changed, and the accounts with it. -/
theorem Inv.change {s' : State} {d : Dir} (h : Inv limits s) (hdirs : s'.dirs = update s.dirs p d)
    (hbalanced : Balanced (update s.sizes p d.buf) s'.lru s'.used)
    (hrlen : ∀ n, d.buf = some n → d.rlen = n) (hnode : d.lruNode = d.buf.isSome)
    (hbudget : s'.used ≤ limits.budget) : Inv limits s' := by
  have hsizes : s'.sizes = update s.sizes p d.buf := by
    funext q
    by_cases hq : q = p
    · simp [State.sizes, hdirs, hq]
    · simp [State.sizes, hdirs, hq]
  refine ⟨⟨hsizes ▸ hbalanced, ?_, hbudget⟩, ?_⟩
  · intro q n hq
    by_cases hqp : q = p
    · simp only [hdirs, hqp, update_self] at hq ⊢
      exact hrlen n hq
    · simp only [hdirs, update_of_ne hqp] at hq ⊢
      exact h.rlen q n hq
  · intro q
    by_cases hqp : q = p
    · simp only [hdirs, hqp, update_self, hnode]
    · simp only [hdirs, update_of_ne hqp, h.node q]

section
variable (h : Inv limits s) (hbuf : (g (s.dirs p)).buf = (s.dirs p).buf)
  (hnode : (g (s.dirs p)).lruNode = (s.dirs p).lruNode)
include h hbuf hnode

/-- A change of an entry that leaves its buffer, and its length if there is one. -/
theorem Inv.on (hrlen : ∀ n, (s.dirs p).buf = some n → (g (s.dirs p)).rlen = n) :
    Inv limits (s.on p g) := by
  refine h.change rfl ?_ (hbuf.symm ▸ hrlen) (by rw [hnode, hbuf, h.node]) h.budget
  rw [hbuf, show (s.dirs p).buf = s.sizes p from rfl, update_eq_self]
  exact h.balanced

/-- A change of an entry without a buffer. -/
theorem Inv.on_none (hp : (s.dirs p).buf = none) : Inv limits (s.on p g) := by
  refine h.on hbuf hnode ?_
  intro n hn
  rw [hp] at hn
  cases hn

end

/-! ### Freeing buffers -/

theorem free_none (h : (s.dirs p).buf = none) : rforkCacheFree p s = s := by
  unfold rforkCacheFree
  simp only [h]

theorem Inv.free_some (h : Inv limits s) (hp : (s.dirs p).buf = some n) : rforkCacheFree p s =
      { dirs := update s.dirs p { s.dirs p with buf := none, lruNode := false }
        lru := s.lru.erase p
        used := s.used - n } := by
  have hrlen := h.rlen p n hp
  have hnode := h.node p
  have hle := h.balanced.le_total hp
  unfold rforkCacheFree
  simp only [hp, hnode, hrlen, Option.isSome_some, if_true]
  rw [if_neg (by omega), if_neg (by omega), Int.toNat_natCast]

theorem free_buf : ((rforkCacheFree p s).dirs p).buf = none := by
  fun_cases rforkCacheFree p s with
  | case1 _ hp => exact hp
  | case2 => simp

section
variable (h : Inv limits s)
include h

theorem Inv.free (p : ℕ) : Inv limits (rforkCacheFree p s) := by
  cases hp : (s.dirs p).buf with
  | none =>
    rw [free_none hp]
    exact h
  | some =>
    rw [h.free_some hp]
    exact h.change rfl (h.balanced.drop hp) (by simp) rfl ((Nat.sub_le _ _).trans h.budget)

/-- The change that follows the freeing of the entry's buffer. -/
theorem Inv.free_on (hbuf : ∀ d, (g d).buf = d.buf) (hnode : ∀ d, (g d).lruNode = d.lruNode) :
    Inv limits ((rforkCacheFree p s).on p g) :=
  (h.free p).on_none (hbuf _) (hnode _) free_buf

theorem Inv.evictLoop (n : ℕ) : Inv limits (evictLoop budget needed n s) := by
  induction n generalizing s with
  | zero => exact h
  | succ n ih =>
    unfold RforkCache.evictLoop
    split
    · exact h
    · split_ifs
      · exact ih (h.free _)
      · exact h

theorem Inv.evict (budget needed : ℕ) :
    Inv limits (rforkCacheEvictToBudget budget needed s) := h.evictLoop _

/-- The eviction ends where its loop does: the bytes fit or no buffer is left. -/
theorem Inv.evict_fits (budget needed : ℕ) : (rforkCacheEvictToBudget budget needed s).lru = [] ∨
      (rforkCacheEvictToBudget budget needed s).used + needed ≤ budget := by
  unfold rforkCacheEvictToBudget
  generalize hn : s.lru.length = n
  induction n generalizing s with
  | zero => exact .inl (List.eq_nil_of_length_eq_zero hn)
  | succ n ih =>
    unfold RforkCache.evictLoop
    cases hl : s.lru with
    | nil =>
      rw [hl] at hn
      cases hn
    | cons p =>
      split_ifs with hfull
      · apply ih (h.free p)
        have hmem : p ∈ s.lru := hl ▸ List.mem_cons_self
        obtain ⟨m, hm⟩ := Option.isSome_iff_exists.mp ((h.balanced.mem p).mp hmem)
        rw [h.free_some hm]
        simp only [hl, List.erase_cons_head]
        rw [hl] at hn
        exact Nat.succ.inj hn
      · exact .inr (le_of_not_gt hfull)

/-! ### Filling a buffer -/

theorem Inv.hold (hbuf : (s.dirs p).buf = none) (hrlen : (s.dirs p).rlen = n)
    (hfits : s.used + n ≤ limits.budget) : Inv limits
      { dirs := update s.dirs p { s.dirs p with buf := some n, lruNode := true }
        lru := s.lru ++ [p]
        used := s.used + n } := by
  refine h.change rfl (h.balanced.hold hbuf n) ?_ rfl hfits
  rintro _ ⟨⟩
  exact hrlen

end

theorem free_rlen (q : ℕ) : ((rforkCacheFree p s).dirs q).rlen = (s.dirs q).rlen := by
  fun_cases rforkCacheFree p s with
  | case1 => rfl
  | case2 d =>
    by_cases hq : q = p
    · simp [hq, d]
    · simp [hq]

theorem free_buf_none (h : (s.dirs q).buf = none) : ((rforkCacheFree p s).dirs q).buf = none := by
  fun_cases rforkCacheFree p s with
  | case1 => exact h
  | case2 =>
    by_cases hq : q = p
    · simp [hq]
    · simp [hq, h]

/-- Eviction leaves the lengths, and the entries without a buffer. -/
theorem evict_keeps (h : (s.dirs q).buf = none) :
    ((rforkCacheEvictToBudget budget needed s).dirs q).rlen = (s.dirs q).rlen ∧
      ((rforkCacheEvictToBudget budget needed s).dirs q).buf = none := by
  unfold rforkCacheEvictToBudget
  generalize s.lru.length = n
  induction n generalizing s with
  | zero => exact ⟨rfl, h⟩
  | succ n ih =>
    unfold RforkCache.evictLoop
    split
    · exact ⟨rfl, h⟩
    · split_ifs
      · obtain ⟨hr, hb⟩ := ih (free_buf_none h)
        exact ⟨hr.trans (free_rlen q), hb⟩
      · exact ⟨rfl, h⟩

section
variable (h : Inv limits s)
include h

/-- The state with room for the fork, or without it. -/
theorem Inv.room (hbuf : (s.dirs p).buf = none) (n : ℕ) (s' : State) (hs' : s' =
      if limits.budget < s.used + n then rforkCacheEvictToBudget limits.budget n s else s) :
    Inv limits s' ∧ (s'.dirs p).buf = none ∧ (s'.dirs p).rlen = (s.dirs p).rlen := by
  split_ifs at hs' with hfull
  · obtain ⟨hrlen, hnone⟩ := @evict_keeps s limits.budget n p hbuf
    rw [hs']
    exact ⟨h.evict _ _, hnone, hrlen⟩
  · rw [hs']
    exact ⟨h, hbuf, rfl⟩

theorem Inv.store (p : ℕ) (env : StoreEnv) :
    Inv limits (rforkCacheStoreFromFd limits p env s).2 := by
  have hfree := h.free p
  fun_cases rforkCacheStoreFromFd limits p env s with
  | case1 => exact h
  | case7 _ _ _ _ _ _ _ _ size s' _ | case8 _ _ _ _ _ _ _ _ size s' _ _ =>
    exact (hfree.room free_buf size s' rfl).1
  | case9 _ _ _ _ _ _ _ _ size s' =>
    obtain ⟨hinv, hbuf, _⟩ := hfree.room free_buf size s' rfl
    dsimp only
    exact hinv.on_none rfl rfl hbuf
  | case10 _ _ _ _ _ _ _ _ size s' =>
    obtain ⟨hinv, hbuf, _⟩ := hfree.room free_buf size s' rfl
    dsimp only
    apply hinv.on_none hbuf.symm _ hbuf
    rw [hinv.node, hbuf]
    rfl
  | case11 _ s₁ rlen _ hpos _ _ _ size s' hroom _ _ _ =>
    obtain ⟨hinv, hbuf, hrlen⟩ := hfree.room free_buf size s' rfl
    have hsize : (s'.dirs p).rlen = size := by
      rw [hrlen]
      show rlen = (rlen.toNat : ℤ)
      omega
    exact hinv.hold hbuf hsize (le_of_not_gt hroom)
  | _ => exact hfree

/-! ### The other operations -/

theorem Inv.did (p did : ℕ) : Inv limits (s.on p fun d => { d with did := did }) := by
  apply h.on
  · rfl
  · rfl
  · exact h.rlen p

theorem Inv.stat (p ino : ℕ) (st : Stat) :
    Inv limits (s.on p fun d => { takeStat st d with ino := ino }) := by
  apply h.on
  · rfl
  · rfl
  · exact h.rlen p

theorem Inv.retire (r : Retired) : Inv limits (retire s r) := by
  cases r with
  | forget p => exact h.did p cnidInvalid
  | free p => exact h.free p

theorem Inv.retireAll (l : List Retired) : Inv limits (retireAll l s) := by
  induction l generalizing s with
  | nil => exact h
  | cons r l ih => exact ih (h.retire r)

theorem Inv.dirRemoveTree (p : ℕ) (l : List Retired) : Inv limits (dirRemoveTree p l s) := by
  unfold RforkCache.dirRemoveTree
  simp only
  split_ifs
  · exact h
  · exact (h.retire _).retireAll l

theorem Inv.modifyPath (p : ℕ) (env : ModifyEnv) : Inv limits (modifyPath p env s).2 := by
  fun_cases RforkCache.modifyPath p env s with
  | case1 | case2 => exact h
  | case3 l => exact h.retireAll l
  | case4 l => exact (h.retireAll l).dirRemoveTree p env.remove

end

/-- The state of an object. -/
def Object.state : Object → State
  | .gone s | .kept s | .taken s | .replaced s => s

section
variable (p) (h : Inv limits s)
include h

theorem Inv.modifyCnid (env : ModifyEnv) : Inv limits (modifyCnid p env s).state := by
  fun_cases RforkCache.modifyCnid p env s with
  | case2 => exact h.dirRemoveTree p env.remove
  | case4 => exact (h.did p _).retireAll env.rekey
  | _ => exact h

theorem Inv.modifyStat (st : Stat) (env : ModifyEnv) : Inv limits (modifyStat p st env s).2 := by
  have hfresh : ∀ b : Bool, Inv limits (if b then
      (rforkCacheFree p s).on p fun d => { d with rlen := adRlenUnknown } else s) := by
    intro b
    split_ifs
    · exact h.free_on (fun _ => rfl) fun _ => rfl
    · exact h
  have hobject : ∀ {b : Bool} {s' : State} {o : Object}, Inv limits s' →
      (if b then RforkCache.modifyCnid p env s' else .taken s') = o → Inv limits o.state := by
    rintro b s' _ h' rfl
    split_ifs
    · exact h'.modifyCnid p env
    · exact h'
  fun_cases RforkCache.modifyStat p st env s with
  | case1 => exact (hfresh _).dirRemoveTree p env.remove
  | case2 _ _ _ s' ho => exact hobject (hfresh _) ho
  | case3 _ _ _ s' ho =>
    have hkept : Inv limits s' := hobject (hfresh _) ho
    exact hkept.stat p (s'.dirs p).ino st
  | case4 _ _ _ s' ho =>
    have htaken : Inv limits s' := hobject (hfresh _) ho
    exact htaken.stat p st.ino st
  | case5 _ _ _ s' ho =>
    have hreplaced : Inv limits s' := hobject (hfresh _) ho
    exact (hreplaced.stat p st.ino st).retireAll env.children

theorem Inv.modifyAd (args : ModifyArgs) (taken : Bool) : Inv limits (modifyAd p args taken s) := by
  fun_cases RforkCache.modifyAd p args taken s with
  | case1 | case3 => exact h
  | case2 => exact h.free_on (fun _ => rfl) fun _ => rfl

theorem Inv.modifyMdate (args : ModifyArgs) (taken : Option Stat) :
    Inv limits (modifyMdate p args taken s) := by
  fun_cases RforkCache.modifyMdate p args taken s with
  | case1 | case3 => exact h
  | case2 =>
    apply h.on
    · rfl
    · rfl
    · exact h.rlen p

theorem Inv.modifyAdInv (args : ModifyArgs) : Inv limits (modifyAdInv p args s) := by
  fun_cases RforkCache.modifyAdInv p args s with
  | case1 => exact h.free_on (fun _ => rfl) fun _ => rfl
  | case2 => exact h

theorem Inv.dirModify (args : ModifyArgs) (env : ModifyEnv) :
    Inv limits (dirModify p args env s).2 := by
  have hadd : ∀ b : Bool, Inv limits (if b then RforkCache.retireAll env.add s else s) := by
    intro b
    split_ifs
    · exact h.retireAll env.add
    · exact h
  have hpath : ∀ s', Inv limits s' →
      Inv limits (if args.path then RforkCache.modifyPath p env s' else (true, s')).2 := by
    intro s' h'
    split_ifs
    · exact h'.modifyPath p env
    · exact h'
  fun_cases RforkCache.dirModify p args env s with
  | case1 => exact h
  | case2 => exact hpath _ (hadd _)
  | case3 _ _ r₁ _ taken =>
    have h₁ : Inv limits r₁.2 := hpath _ (hadd _)
    clear_value taken
    cases taken with
    | none => exact h₁
    | some st => exact h₁.modifyStat p st env
  | case4 _ _ r₁ _ taken r =>
    have h₁ : Inv limits r₁.2 := hpath _ (hadd _)
    have hr : Inv limits r.2 := by
      clear_value taken
      cases taken with
      | none => exact h₁
      | some st => exact h₁.modifyStat p st env
    have hdates := (hr.modifyAd p args taken.isSome).modifyMdate p args taken
    exact (hdates.modifyAdInv p args).retireAll env.promote

theorem Inv.dirTakesStat (st : Stat) (env : ModifyEnv) :
    Inv limits (dirTakesStat p st env s).2 := by
  fun_cases RforkCache.dirTakesStat p st env s with
  | case1 => exact h
  | case2 _ _ s' =>
    have hs' : s' = if dirStatDiffers (s.dirs p) st then _ else s := rfl
    rw [hs']
    split_ifs
    · exact h.dirModify p _ env
    · exact h

end

/-! ### Metadata stores -/

/-- A store leaves the length of a buffer as it is. -/
def State.Fits (s : State) (p : ℕ) (adp : Adouble) : Prop :=
  ∀ n, (s.dirs p).buf = some n → adp.rlen = n

theorem Inv.adStore {adp : Adouble} (h : Inv limits s) (hfits : s.Fits p adp) :
    Inv limits (s.on p (adStoreToCache adp)) := by
  apply h.on
  · rfl
  · rfl
  · exact hfits

theorem Inv.lookup {dir' : Option ℕ} {s' : State} (h : Inv limits s)
    (hlookup : metadataLookup dir strict recent env s = .disk dir' s') : Inv limits s' := by
  have hserve : ∀ p, metadataServe p s = .disk dir' s' → Inv limits s' := by
    intro p
    fun_cases metadataServe p s with
    | case1 | case2 => rintro ⟨⟩
    | case3 =>
      rintro ⟨⟩
      exact h
  revert hlookup
  fun_cases metadataLookup dir strict recent env s with
  | case1 | case2 =>
    rintro ⟨⟩
    exact h
  | case3 p | case5 p => exact hserve p
  | case4 p _ st =>
    rintro ⟨⟩
    exact h.dirTakesStat p st env.refresh

/-- Each metadata store that the operation makes leaves the length of a buffer as it is. -/
def Keeps (s : State) : Op → Prop
  | .metadata _ dir strict recent env =>
    ∀ p s' adp, metadataLookup dir strict recent env s = .disk (some p) s' →
      env.adMetadata = .ok adp → s'.Fits p adp
  | .rename p st env adOpen =>
    ∀ adp, adOpen = some adp →
      (dirModify p ⟨true, true, false, false, some st, none⟩ env s).1 = true →
      (dirModify p ⟨true, true, false, false, some st, none⟩ env s).2.Fits p adp
  | _ => True

theorem Inv.metadata {isDir : Bool} (h : Inv limits s)
    (hkeeps : Keeps s (.metadata isDir dir strict recent env)) :
    Inv limits (adMetadataCached isDir dir strict recent env s).2 := by
  fun_cases adMetadataCached isDir dir strict recent env s with
  | case1 | case2 => exact h
  | case3 dir' s' hlookup =>
    have hinv := h.lookup hlookup
    fun_cases metadataRead isDir env dir' s' with
    | case1 | case4 => exact hinv
    | case2 p adp hadp => exact hinv.adStore (hkeeps p s' adp hlookup hadp)
    | case3 =>
      dsimp only
      exact hinv.free_on (fun _ => rfl) fun _ => rfl

theorem Inv.rename {st : Stat} {env : ModifyEnv} {adOpen : Option Adouble} (h : Inv limits s)
    (hkeeps : Keeps s (.rename p st env adOpen)) :
    Inv limits (moveandrename p st env adOpen s) := by
  have hinv := h.dirModify p ⟨true, true, false, false, some st, none⟩ env
  fun_cases moveandrename p st env adOpen s with
  | case1 | case3 => exact hinv
  | case2 _ adp hr => exact hinv.adStore (hkeeps adp rfl hr)

/-! ### Sequences of operations -/

theorem Inv.init (h : Initial s) : Inv limits s := by
  have hnone : ∀ p, s.sizes p = none := fun p => (h.buf p).1
  refine ⟨⟨?_, ?_, by rw [h.used]; exact zero_le⟩, ?_⟩
  · rw [h.lru, h.used]
    exact .of_none hnone
  · intro p n hp
    rw [(h.buf p).1] at hp
    cases hp
  · intro p
    rw [(h.buf p).1, (h.buf p).2]
    rfl

theorem Inv.exec (h : Inv limits s) {op : Op} (hkeeps : Keeps s op) :
    Inv limits (exec limits s op) := by
  cases op with
  | store p env => exact h.store p env
  | free p => exact h.free p
  | evict needed => exact h.evict _ needed
  | metadata => exact h.metadata hkeeps
  | modify p args env => exact h.dirModify p args env
  | rename => exact h.rename hkeeps
  | retire r => exact h.retire r

theorem Reach.inv (h : Reach limits Keeps s) : Inv limits s := by
  induction h with
  | init hs => exact .init hs
  | step op _ hkeeps ih => exact ih.exec hkeeps

/-- After operations of which no metadata store changes the length of a buffer the accounts are
right. -/
theorem accounted_of_keeps (h : Reach limits Keeps s) : Accounted limits s := h.inv.toAccounted

/-- Files whose metadata is not cached. -/
def files : State where
  dirs := fun p => ⟨20 + p, true, 7 + p, 1000, 1000, adRlenUnknown, .zero, none, false⟩
  lru := []
  used := 0

/-- A dircache whose indexes do nothing to other entries. -/
def quiet : ModifyEnv := ⟨true, [], .sameKey, true, false, none, false, none, [], [], [], []⟩

/-- A read of metadata with a resource fork of a length; the file's own stat fails. -/
def readLength (n : ℤ) : MetadataEnv := ⟨none, quiet, .ok ⟨none, none, none, n⟩, 0, false⟩

theorem files_initial : Initial files := ⟨fun _ => ⟨rfl, rfl⟩, rfl, rfl⟩

/-- The first file's metadata is read. -/
def readFirst : Op := .metadata false (some 0) false none (readLength 3)

/-- Its resource fork of three bytes is cached. -/
def storeFirst : Op := .store 0 ⟨true, true, true, 3, true⟩

def filled : State := exec ⟨10, 10⟩ (exec ⟨10, 10⟩ files readFirst) storeFirst

theorem accounted_of_keeps_filled : filled.lru = [0] ∧ Accounted ⟨10, 10⟩ filled := by
  refine ⟨by decide, ?_⟩
  have hread : Keeps files readFirst := by
    intro p s' adp hlookup _
    cases hlookup
    rintro n ⟨⟩
  exact accounted_of_keeps (.step _ (.step _ (.init files_initial) hread) trivial)

/-- The file is looked up again, for a rename or a delete; the stat fails, and the metadata on disk
now has a shorter resource fork, whose length replaces that of the buffer. -/
theorem failed_stat_breaks_accounts :
    ∃ s, Reach ⟨10, 10⟩ (fun _ _ => True) s ∧ ¬ Accounted ⟨10, 10⟩ s := by
  refine ⟨exec ⟨10, 10⟩ filled (.metadata false (some 0) true none (readLength 1)), ?_, ?_⟩
  · exact .step _ (.step _ (.step _ (.init files_initial) trivial) trivial) trivial
  · intro h
    exact absurd (h.rlen 0 3 rfl) (by decide)

end Netatalk.RforkCache
