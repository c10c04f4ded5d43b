import Netatalk.AdLockRun
import Netatalk.Bytes

/-! # FPByteRangeLock and the share mode band

The model of `byte_lock` of `etc/afpd/fork.c`, on top of `ad_lock`.  The bytes from
`AD_FILELOCK_BASE` on of a data fork's file carry the share modes of the open forks.  A byte
range lock that asks for the rest of the file ends below them, but no other length is compared
with the band: `byteLock_below_iff` says which requests can record and lock bytes of it.

* **The request.**  `ibuf` is the command buffer from the request block on; `byte_lock` does
  not look at the block's length.
* **Offsets.**  `off_t` values are integers; the one sum that can leave the range, that of an
  end-relative offset and the fork's size, is reduced to 64 bits.
* **The environment.**  `Answers` holds what the calls below `byte_lock` answer: the kernel and
  the allocator under `ad_lock`, the size of a fork, and what `fork_open_rsrc` does.  That one
  opens the descriptor of the resource fork; the data fork's descriptor is not its business. -/

namespace Netatalk.AdLock

open List Bytes

/-! ### The request -/

/-- A 32-bit field in network order. -/
def ntohl (ibuf : ℕ → UInt8) (i : ℕ) : ℕ := beNat [ibuf i, ibuf (i + 1), ibuf (i + 2), ibuf (i + 3)]

/-- `get_off_t` at a position of the request: a 64-bit field, or a 32-bit one that is sign
extended. -/
def getOffT (ibuf : ℕ → UInt8) (i : ℕ) (is64 : Bool) : ℤ :=
  if is64 then Int.bmod (2 ^ 32 * ntohl ibuf i + ntohl ibuf (i + 4)) (2 ^ 64)
  else Int.bmod (ntohl ibuf i) (2 ^ 32)

/-- `set_off_t`: an offset in network order. -/
def setOffT (offset : ℤ) (is64 : Bool) : List UInt8 :=
  (leBytes (if is64 then 8 else 4) (offset % 2 ^ 64).toNat).reverse

/-- `is_neg`. -/
def isNeg (is64 : Bool) (val : ℤ) : Bool := val < 0 || (!is64 && 2 ^ 31 ≤ val % 2 ^ 32)

/-- `ENDBIT` of the request's flags. -/
def endbit (ibuf : ℕ → UInt8) : Bool := ibuf 1 &&& 0x80 ≠ 0

/-- `UNLOCKBIT` of the request's flags. -/
def unlockbit (ibuf : ℕ → UInt8) : Bool := ibuf 1 &&& 0x01 ≠ 0

/-- The offset field of the request. -/
def reqOffset (ibuf : ℕ → UInt8) (is64 : Bool) : ℤ := getOffT ibuf 4 is64

/-- The length field of the request. -/
def reqLength (ibuf : ℕ → UInt8) (is64 : Bool) : ℤ := getOffT ibuf (if is64 then 12 else 8) is64

/-- The start of the range: the offset field, from the fork's end under `ENDBIT`. -/
def rangeStart (ibuf : ℕ → UInt8) (is64 : Bool) (size : ℤ) : ℤ :=
  if endbit ibuf then Int.bmod (reqOffset ibuf is64 + size) (2 ^ 64) else reqOffset ibuf is64

/-! ### The fork -/

/-- The replies of `byte_lock` and of `fork_open_rsrc`. -/
inductive Reply where
  | ok
  | lock
  | noRange
  | nLock
  | rangeOvr
  | param
  | misc
  | access
deriving DecidableEq, Repr

/-- `errno` of a refused `F_SETLK`. -/
inductive FcntlErrno where
  | eacces
  | eagain
  | enolck
  | einval
  | eoverflow
  | ebadf
  | other
deriving DecidableEq, Repr

/-- `struct ofork`, as far as `byte_lock` reads it. -/
structure Ofork where
  /-- `AFPFORK_VIRTUAL` -/
  isVirtual : Bool
  /-- `AFPFORK_DATA` -/
  isData : Bool
  /-- `AFPFORK_RSRC` -/
  isRsrc : Bool
  /-- `AFPFORK_CACHED` -/
  isCached : Bool
  /-- `of_adflags & ADFLAGS_RF` -/
  holdsRf : Bool
  refnum : ℕ
  ad : Adouble

/-- `fork_cached`: opened from the resource fork cache, without a resource fork reference. -/
def Ofork.cached (of : Ofork) : Bool := of.isCached && !of.holdsRf

/-- The fork a request is about. -/
def Ofork.eid (of : Ofork) : Option Eid :=
  if of.isData then some .dfork else if of.isRsrc then some .rfork else none

/-- What `fork_open_rsrc` leaves behind: its reply, whether the fork took a reference, and the
resource fork's descriptor. -/
structure RsrcOpen where
  reply : Reply
  holdsRf : Bool
  rfp : LockFile
  rforkOff : ℤ
  rforkOff_nonneg : 0 ≤ rforkOff
  rforkOff_le : rforkOff ≤ lockTop

/-- The fork after `fork_open_rsrc`. -/
def Ofork.opened (of : Ofork) (r : RsrcOpen) : Ofork :=
  { of with
    holdsRf := r.holdsRf
    ad := { of.ad with
      rfp := r.rfp
      rforkOff := r.rforkOff
      rforkOff_nonneg := r.rforkOff_nonneg
      rforkOff_le := r.rforkOff_le } }

/-- Answers to the calls of `byte_lock`. -/
structure Answers where
  kernel : Eid → Env
  fcntlErrno : FcntlErrno
  openRsrc : RsrcOpen
  /-- `ad_size` of the two forks -/
  adSize : Eid → ℤ

variable (w : Answers)

/-! ### The call -/

/-- The reply for the `errno` a refused `F_SETLK` left. -/
def fcntlReply (unlock : Bool) : FcntlErrno → Reply
  | .eacces | .eagain => if unlock then .noRange else .lock
  | .enolck => .nLock
  | .einval | .eoverflow => if unlock then .noRange else .rangeOvr
  | .ebadf | .other => .param

/-- The reply for the `errno` of a failed `ad_lock`. -/
def lockReply (unlock : Bool) : Errno → Reply
  | .eacces => fcntlReply unlock .eacces
  | .einval => fcntlReply unlock .einval
  | .eoverflow => fcntlReply unlock .eoverflow
  | .enomem => fcntlReply unlock .other
  | .fcntl => fcntlReply unlock w.fcntlErrno

/-- The lock type `byte_lock` asks for: a write lock or a release. -/
def lockop (ibuf : ℕ → UInt8) : Locktype := ⟨if unlockbit ibuf then .clr else .wr, false, false⟩

/-- `byte_lock` past the opening of the resource fork. -/
def byteLockRange (is64 : Bool) (ibuf : ℕ → UInt8) (eid : Eid) (length : ℤ) (of : Ofork) :
    Reply × List UInt8 × Ofork :=
  if adFilelockBase ≤ length ∧ of.ad.rfp.fd = .closed then
    (if of.cached then .noRange else .lock, [], of)
  else
    let offset := rangeStart ibuf is64 (w.adSize eid)
    if offset < 0 then (.param, [], of)
    else
      match adLock w.kernel eid (lockop ibuf) offset length of.refnum of.ad with
      | (.ok, ad) => (.ok, setOffT offset is64, { of with ad := ad })
      | (.err e, ad) => (lockReply w (unlockbit ibuf) e, [], { of with ad := ad })
      -- only a share mode lock of a length other than one panics
      | (.panic, ad) => (.param, [], { of with ad := ad })

/-- `byte_lock` on the fork it finds. -/
def byteLockFork (is64 : Bool) (ibuf : ℕ → UInt8) (of : Ofork) : Reply × List UInt8 × Ofork :=
  if of.isVirtual then (.ok, [], of)
  else
    match of.eid with
    | none => (.param, [], of)
    | some eid =>
      let length := reqLength ibuf is64
      if length ≠ -1 ∧ (length = 0 ∨ isNeg is64 length) then (.param, [], of)
      else
        let length := if length = -1 then bytelockMax else length
        -- an end-relative offset is checked once the fork's size is known
        if reqOffset ibuf is64 < 0 ∧ endbit ibuf = false then (.param, [], of)
        else if unlockbit ibuf = false ∧ of.cached then
          if w.openRsrc.reply ≠ .ok then (w.openRsrc.reply, [], of.opened w.openRsrc)
          else byteLockRange w is64 ibuf eid length (of.opened w.openRsrc)
        else byteLockRange w is64 ibuf eid length of

/-- `byte_lock`, with what `of_find` answers for the request's reference number: the reply, the
reply block and the fork afterwards. -/
def byteLock (ofFind : ℕ → Option Ofork) (is64 : Bool) (ibuf : ℕ → UInt8) :
    Reply × List UInt8 × Option Ofork :=
  match ofFind (leNat [ibuf 2, ibuf 3]) with
  | none => (.param, [], none)
  | some of =>
    let (reply, rbuf, of) := byteLockFork w is64 ibuf of
    (reply, rbuf, some of)

/-! ### The band -/

/-- From `f` to `f'` nothing at or past `AD_FILELOCK_BASE` was recorded or locked. -/
structure Below (f f' : LockFile) : Prop where
  recorded : ∀ e ∈ f'.lock, adFilelockBase ≤ e.last →
    ∃ e₀ ∈ f.lock, e₀.lock = e.lock ∧ e₀.user = e.user
  locked : ∀ b, adFilelockBase ≤ b → f'.held b = f.held b ∨ f'.held b = .free

/-- The range of a request to lock the data fork fits into the file and reaches the band.  The
length `-1` and the length `BYTELOCK_MAX` ask for the bytes below `BYTELOCK_MAX`. -/
def ReachesBand (is64 : Bool) (ibuf : ℕ → UInt8) (of : Ofork) (size : ℤ) : Prop :=
  (of.isVirtual = false ∧ of.isData = true ∧ unlockbit ibuf = false) ∧
  (0 < reqLength ibuf is64 ∧ reqLength ibuf is64 ≠ bytelockMax) ∧
  0 ≤ rangeStart ibuf is64 size ∧
  adFilelockBase < rangeStart ibuf is64 size + reqLength ibuf is64 ∧
  rangeStart ibuf is64 size + reqLength ibuf is64 ≤ lockTop + 1

/-! ### Calls that stay below it -/

section below
variable {f f' f'' : LockFile}

theorem Below.of_same (hl : f'.lock = f.lock) (hh : f'.held = f.held) : Below f f' where
  recorded e he _ := ⟨e, hl ▸ he, rfl, rfl⟩
  locked b _ := .inl (congrFun hh b)

theorem Below.refl (f : LockFile) : Below f f := .of_same rfl rfl

theorem Below.trans (h : Below f f') (h' : Below f' f'') : Below f f'' where
  recorded e he hb := by
    obtain ⟨e₁, he₁, hl₁, hu₁⟩ := h'.recorded e he hb
    have hb₁ : adFilelockBase ≤ e₁.last := by simpa [AdfLock.last, hl₁] using hb
    obtain ⟨e₀, he₀, hl₀, hu₀⟩ := h.recorded e₁ he₁ hb₁
    exact ⟨e₀, he₀, hl₀.trans hl₁, hu₀.trans hu₁⟩
  locked b hb := by
    rcases h'.locked b hb with h₁ | h₁
    · rw [h₁]
      exact h.locked b hb
    · exact .inr h₁

end below

variable {eid : Eid} {len off size : ℤ} {lock r : Flock} {of : Ofork} {t : Locktype}

section calls
variable (env : Env)

theorem setLock_below (h : r.lType = .unlck ∨ adfLockLast r.lStart r.lLen < adFilelockBase)
    (f : LockFile) : Below f (setLock env r f).2 := by
  fun_cases setLock env r f with
  | case1 | case2 => exact .refl f
  | case3 => exact .of_same rfl rfl
  | case4 hfd hr =>
    refine ⟨fun e he _ => ⟨e, he, rfl, rfl⟩, fun b hb => ?_⟩
    rcases h with h | h
    · simp only [LockMap.set, h]
      split_ifs
      · exact .inr rfl
      · exact .inl rfl
    · exact .inl (LockMap.set_out _ _ (.inr (by omega)))

theorem adfLockGaps_below (h : r.lType = .unlck) (f : LockFile) :
    Below f (adfLockGaps env r f).2 := by
  have stretch : ∀ {r : Flock}, r.lType = .unlck → ∀ done stop f,
      Below f (gapStretch env r done stop f).2 := by
    intro r hr done stop f
    fun_cases gapStretch env r done stop f
    · apply setLock_below
      exact .inl hr
    · exact .refl f
  exact adfLockGaps_rel env Below.refl Below.trans (stretch h) (fun _ _ => stretch rfl) f

/-- Recomputing the reach keeps every entry's lock and fork. -/
theorem exists_of_mem_adfLockReach {arr : List AdfLock} {i : ℕ} {e : AdfLock}
    (he : e ∈ adfLockReach arr i) : ∃ e₀ ∈ arr, e₀.lock = e.lock ∧ e₀.user = e.user := by
  rcases mem_append.mp he with he | he
  · exact ⟨e, mem_of_mem_take he, rfl, rfl⟩
  · have hdrop : ∀ x ∈ arr.drop i, ∃ e₀ ∈ arr, e₀.lock = x.lock ∧ e₀.user = x.user :=
      fun x hx => ⟨x, mem_of_mem_drop hx, rfl, rfl⟩
    exact forall_mem_reachLoop (fun _ _ h => h) _ hdrop e he

theorem insertLock_below (h : adfLockLast lock.lStart lock.lLen < adFilelockBase)
    (fork : ℤ) (f : LockFile) : Below f (insertLock lock fork f) where
  recorded e he hb := by
    obtain ⟨e₀, he₀, hl, hu⟩ := exists_of_mem_adfLockReach he
    rcases eq_or_mem_of_mem_insertIdx he₀ with rfl | he₀
    · simp only [AdfLock.last, ← hl] at hb
      omega
    · exact ⟨e₀, he₀, hl, hu⟩
  locked b _ := .inl rfl

theorem adfFreelock_below (i : ℕ) (f : LockFile) : Below f (adfFreelock env i f) := by
  fun_cases adfFreelock env i f with
  | case1 => exact .refl f
  | case2 e he f₁ =>
    have herase : Below f f₁ := by
      refine ⟨fun x hx _ => ?_, fun b _ => .inl rfl⟩
      obtain ⟨e₀, he₀, h⟩ := exists_of_mem_adfLockReach hx
      exact ⟨e₀, mem_of_mem_eraseIdx he₀, h⟩
    exact (herase.trans (adfLockGaps_below env rfl f₁)).trans
      (.of_same (shrinkArray_lock env _) (shrinkArray_held env _))

theorem recordLock_below (h : adfLockLast lock.lStart lock.lLen < adFilelockBase)
    (fork : ℤ) (f : LockFile) : Below f (recordLock env lock fork f).2 := by
  fun_cases recordLock env lock fork f with
  | case1 hfull hfail f₁ =>
    have hclock : Below f f₁ := .of_same rfl rfl
    exact hclock.trans (adfLockGaps_below env rfl f₁)
  | case2 hfull halloc f₁ =>
    have hgrown : Below f f₁ := .of_same rfl rfl
    exact hgrown.trans (insertLock_below h fork f₁)
  | case3 => exact insertLock_below h fork f

/-- A release, and a take that ends below the band and upgrades no entry, leave it alone. -/
theorem adLockChecked_below (ht : t.upgrade = false) {mode : LockMode}
    (h : lock.lType = .unlck ∨ adfLockLast lock.lStart lock.lLen < adFilelockBase)
    (fork : ℤ) (f : LockFile) : Below f (adLockChecked env t mode lock fork f).2 := by
  have granted : ∀ {ok f₁}, setLock env lock f = (ok, f₁) → Below f f₁ := by
    intro ok f₁ hs
    have hb := setLock_below env h f
    rw [hs] at hb
    exact hb
  fun_cases adLockChecked env t mode lock fork f with
  | case3 _ _ _ f₁ hs => exact granted hs
  | case4 _ _ hty f₁ hs =>
    exact (granted hs).trans (recordLock_below env (h.resolve_left hty) fork f₁)
  | case7 _ i => exact adfFreelock_below env i f
  | case8 _ _ _ _ _ _ _ f₁ hs => exact granted hs
  | case9 _ _ _ e _ hbad hty =>
    -- without the upgrade flag an own entry over the range refuses the take
    simp only [ht, not_or, true_and] at hbad
    exact absurd hty hbad.2.2
  | _ => exact .refl f

/-- `ad_lock` on the data fork: a release, the rest of the file, a range that ends below the
band and one that leaves the file take nothing of the band. -/
theorem adLockFd_below (ht : t.upgrade = false)
    (h : t.mode = .clr ∨ len = bytelockMax ∨ off + len ≤ adFilelockBase ∨ lockTop + 1 < off + len)
    (fork : ℤ) (f : LockFile) : Below f (adLockFd env t 0 off len fork f).2 := by
  fun_cases adLockFd env t 0 off len fork f with
  | case4 hoff mode start lock hlen hfits =>
    apply adLockChecked_below env ht
    rcases h with h | h
    · left
      simp [lock, mode, LockFile.degrade, h, xlateFcntlLock]
    · right
      simp only [adfLockFits, Bool.not_eq_false, decide_eq_true_eq] at hfits
      simp only [adfLockLast]
      simp only [lock] at hlen hfits ⊢
      split_ifs at * <;> simp only [bytelockMax] at * <;> omega
  | _ => exact .refl f

end calls

section request
variable (is64 : Bool) (ibuf : ℕ → UInt8)

/-- The range of a request takes nothing of the band when `ad_lock` is called with it. -/
def StaysBelow (off len : ℤ) : Prop :=
  unlockbit ibuf = true ∨ len = bytelockMax ∨ off + len ≤ adFilelockBase ∨ lockTop + 1 < off + len

/-- A lock of the resource fork goes to another file. -/
theorem adLock_below (h : eid = .dfork → StaysBelow ibuf off len) (fork : ℤ) (ad : Adouble) :
    Below ad.dataFork (adLock w.kernel eid (lockop ibuf) off len fork ad).2.dataFork := by
  cases eid with
  | dfork =>
    have hmode : (lockop ibuf).mode = .clr ∨ len = bytelockMax ∨ off + len ≤ adFilelockBase ∨
        lockTop + 1 < off + len := (h rfl).imp_left fun hu => by simp [lockop, hu]
    exact adLockFd_below (w.kernel .dfork) rfl hmode fork ad.dataFork
  | rfork => exact .refl ad.dataFork

theorem byteLockRange_below
    (h : eid = .dfork → 0 ≤ rangeStart ibuf is64 (w.adSize eid) →
      StaysBelow ibuf (rangeStart ibuf is64 (w.adSize eid)) len) (of : Ofork) :
    Below of.ad.dataFork (byteLockRange w is64 ibuf eid len of).2.2.ad.dataFork := by
  have called : ∀ {off ret ad}, off = rangeStart ibuf is64 (w.adSize eid) → ¬ off < 0 →
      adLock w.kernel eid (lockop ibuf) off len of.refnum of.ad = (ret, ad) →
      Below of.ad.dataFork ad.dataFork := by
    rintro _ ret ad rfl hoff hcall
    have hb := adLock_below w ibuf (fun he => h he (by omega)) of.refnum of.ad
    rw [hcall] at hb
    exact hb
  fun_cases byteLockRange w is64 ibuf eid len of with
  | case1 | case2 => exact .refl _
  | case3 _ _ hoff _ hcall | case4 _ _ hoff _ _ hcall | case5 _ _ hoff _ hcall =>
    exact called rfl hoff hcall

/-- The lengths `byte_lock` refuses are those below one, `-1` apart. -/
theorem length_ok_iff : ¬ (reqLength ibuf is64 ≠ -1 ∧
      (reqLength ibuf is64 = 0 ∨ isNeg is64 (reqLength ibuf is64) = true)) ↔
    reqLength ibuf is64 = -1 ∨ 0 < reqLength ibuf is64 := by
  have hhi : is64 = false → reqLength ibuf is64 < 2 ^ 31 := by
    rintro rfl
    have hlt := Int.bmod_lt (x := (ntohl ibuf 8 : ℤ)) (m := 2 ^ 32) (by decide)
    simp only [reqLength, getOffT, Bool.false_eq_true, if_false]
    omega
  unfold isNeg
  cases is64 with
  | true => simp; omega
  | false =>
    have := hhi rfl
    simp
    omega

/-- The range `byte_lock` hands to `ad_lock`, when the request does not reach the band. -/
theorem staysBelow_of_not_reachesBand (h : ¬ ReachesBand is64 ibuf of size)
    (hv : of.isVirtual = false) (hd : of.eid = some .dfork)
    (hlen : reqLength ibuf is64 = -1 ∨ 0 < reqLength ibuf is64)
    (hoff : 0 ≤ rangeStart ibuf is64 size) : StaysBelow ibuf (rangeStart ibuf is64 size)
      (if reqLength ibuf is64 = -1 then bytelockMax else reqLength ibuf is64) := by
  have hdata : of.isData = true := by
    by_contra hd'
    simp [Ofork.eid, hd'] at hd
  unfold StaysBelow
  split_ifs with hm
  · exact .inr (.inl rfl)
  · have hpos := hlen.resolve_left hm
    by_contra hn
    simp only [not_or, Bool.not_eq_true] at hn
    exact h ⟨⟨hv, hdata, hn.1⟩, ⟨hpos, hn.2.1⟩, hoff, by omega, by omega⟩

theorem byteLockFork_below (h : ¬ ReachesBand is64 ibuf of (w.adSize .dfork)) :
    Below of.ad.dataFork (byteLockFork w is64 ibuf of).2.2.ad.dataFork := by
  fun_cases byteLockFork w is64 ibuf of with
  | case6 hv eid heid length hlen =>
    refine byteLockRange_below w is64 ibuf ?_ (of.opened w.openRsrc)
    rintro rfl
    exact staysBelow_of_not_reachesBand is64 ibuf h (by simpa using hv) heid
      ((length_ok_iff is64 ibuf).mp hlen)
  | case7 hv eid heid length hlen =>
    refine byteLockRange_below w is64 ibuf ?_ of
    rintro rfl
    exact staysBelow_of_not_reachesBand is64 ibuf h (by simpa using hv) heid
      ((length_ok_iff is64 ibuf).mp hlen)
  | _ => exact .refl _

end request

/-! ### Requests that reach it -/

/-- A handle with both forks open for reading and writing, without a lock. -/
def openForks : Adouble := { openDataFork with rfp := openDataFork.dataFork }

/-- Every call succeeds, and both forks have the given size. -/
def granting (size : ℤ) : Answers where
  kernel := grantAll
  fcntlErrno := .other
  openRsrc := ⟨.ok, true, openForks.rfp, 0, openForks.rforkOff_nonneg, openForks.rforkOff_le⟩
  adSize _ := size

/-- The data fork of `openForks` with one write lock. -/
def writeLocked (off len fork : ℤ) : LockFile :=
  { openForks.dataFork with
    lock := [⟨⟨.wrlck, off, len⟩, fork, off + (len - 1)⟩]
    lockmax := arrayBlockSize
    held := LockMap.empty.set off (off + (len - 1)) .wr
    clock := 2 }

/-- A write lock that fits into a file without locks is taken and recorded. -/
theorem adLockFd_fresh (fork : ℤ) (hoff : 0 ≤ off) (hlen : 0 < len)
    (hmax : len ≠ bytelockMax) (hfits : off + len ≤ lockTop + 1) :
    adLockFd (grantAll .dfork) ⟨.wr, false, false⟩ 0 off len fork openForks.dataFork =
      (.ok, writeLocked off len fork) := by
  have hfind : ∀ p, findWindow [] off len p = none := by
    intro p
    simp [findWindow]
  have hlower : adfLockLower [] off false = 0 := Nat.le_zero.mp (wf_nil.lower_le off false)
  have hroom : ¬ (off < 0 ∨ lockTop < off) := by omega
  have hlast : adfLockLast off len = off + (len - 1) := by simp [adfLockLast, hlen]
  have hfits' : adfLockFits off len = true := by
    simp only [adfLockFits, decide_eq_true_eq]
    omega
  have hreach : adfLockReach [⟨⟨.wrlck, off, len⟩, fork, 0⟩] 0 =
      [⟨⟨.wrlck, off, len⟩, fork, off + (len - 1)⟩] := by
    simp only [adfLockReach, reachBefore, take_zero, nil_append, drop_zero,
      reachLoop, AdfLock.last, hlast]
    rw [if_pos (by omega)]
  simp [adLockFd, adLockChecked, adfFindxlock, adfFindlock, setLock, recordLock, insertLock,
    writeLocked, openForks, openDataFork, grantAll, LockFile.degrade, xlateFcntlLock, FType.held,
    hroom, hmax, hlen.not_ge, hfits', hfind, hlast, hlower, hreach]

theorem byteLockRange_fresh {is64 : Bool} {ibuf : ℕ → UInt8}
    (hd : of.ad.dataFork = openForks.dataFork) (hr : of.ad.rfp.fd = .file)
    (hu : unlockbit ibuf = false) (hlen : 0 < len) (hmax : len ≠ bytelockMax)
    (hoff : 0 ≤ rangeStart ibuf is64 size) (hfits : rangeStart ibuf is64 size + len ≤ lockTop + 1) :
    (byteLockRange (granting size) is64 ibuf .dfork len of).2.2.ad.dataFork =
      writeLocked (rangeStart ibuf is64 size) len of.refnum := by
  have hcall : adLock grantAll .dfork (lockop ibuf) (rangeStart ibuf is64 size) len of.refnum
      of.ad =
      (.ok, of.ad.setAdf .dfork (writeLocked (rangeStart ibuf is64 size) len of.refnum)) := by
    simp [adLock, lockop, hu, Adouble.onAdf, Adouble.adf, hd,
      adLockFd_fresh of.refnum hoff hlen hmax hfits]
  simp [byteLockRange, granting, hr, hoff.not_gt, hcall, Adouble.setAdf]

/-- A request that reaches the band records bytes of it on a file without locks. -/
theorem byteLockFork_reaches {is64 : Bool} {ibuf : ℕ → UInt8}
    (had : of.ad = openForks) (h : ReachesBand is64 ibuf of size) :
    ¬ Below of.ad.dataFork (byteLockFork (granting size) is64 ibuf of).2.2.ad.dataFork := by
  obtain ⟨⟨hv, hd, hu⟩, ⟨hlen, hmax⟩, hoff, hlo, hhi⟩ := h
  have hok := (length_ok_iff is64 ibuf).mpr (.inr hlen)
  have hend : ¬ (reqOffset ibuf is64 < 0 ∧ endbit ibuf = false) := by
    rintro ⟨hneg, he⟩
    simp [rangeStart, he] at hoff
    omega
  have heid : of.eid = some .dfork := by simp [Ofork.eid, hd]
  have hne : reqLength ibuf is64 ≠ -1 := by omega
  have hdf : of.ad.dataFork = openForks.dataFork := by rw [had]
  have hlocked : (byteLockFork (granting size) is64 ibuf of).2.2.ad.dataFork =
      writeLocked (rangeStart ibuf is64 size) (reqLength ibuf is64) of.refnum := by
    simp only [byteLockFork, hv, heid, if_neg hok, hu, hne, if_false,
      Bool.false_eq_true, true_and]
    -- opened from the cache or not, the fork goes on with both descriptors open
    split_ifs with hc hopen
    · exact absurd rfl hopen
    · have hdf' : (of.opened (granting size).openRsrc).ad.dataFork = openForks.dataFork := hdf
      exact byteLockRange_fresh hdf' rfl hu hlen hmax hoff hhi
    · exact byteLockRange_fresh hdf (by rw [had]; rfl) hu hlen hmax hoff hhi
  intro hb
  rw [hlocked, had] at hb
  have hlast : adfLockLast (rangeStart ibuf is64 size) (reqLength ibuf is64) =
      rangeStart ibuf is64 size + (reqLength ibuf is64 - 1) := by simp [adfLockLast, hlen]
  obtain ⟨e₀, he₀, -⟩ := hb.recorded _ (mem_singleton.mpr rfl) (by
    simp only [AdfLock.last]
    omega)
  simp [openForks, openDataFork] at he₀

/-- The requests that stay out of the share mode band, whatever state the fork's locks are in
and whatever the calls below answer, are those that do not lock a range of the data fork that
fits into the file and reaches the band. -/
theorem byteLock_below_iff (is64 : Bool) (ibuf : ℕ → UInt8) (of : Ofork) (size : ℤ) :
    (∀ (w : Answers) (ofFind : ℕ → Option Ofork) (ad : Adouble) (of' : Ofork),
      w.adSize .dfork = size → ofFind (leNat [ibuf 2, ibuf 3]) = some { of with ad := ad } →
      (byteLock w ofFind is64 ibuf).2.2 = some of' → Below ad.dataFork of'.ad.dataFork) ↔
    ¬ ReachesBand is64 ibuf of size := by
  constructor
  · intro h hr
    have hr' : ReachesBand is64 ibuf { of with ad := openForks } size := hr
    refine byteLockFork_reaches rfl hr' ?_
    exact h (granting size) (fun _ => some { of with ad := openForks }) openForks _ rfl rfl rfl
  · rintro h w ofFind ad of' rfl hfind hcall
    simp only [byteLock, hfind, Option.some.injEq] at hcall
    rw [← hcall]
    have h' : ¬ ReachesBand is64 ibuf { of with ad := ad } (w.adSize .dfork) := h
    exact byteLockFork_below w is64 ibuf h'

/-- FPByteRangeLockExt of the byte `AD_FILELOCK_BASE` of the fork with reference number 1. -/
def lockBandByte : ℕ → UInt8 := fun i =>
  [0, 0, 1, 0, 0x7f, 0xff, 0xff, 0xff, 0xff, 0xff, 0xff, 0xf6, 0, 0, 0, 0, 0, 0, 0, 1].getD i 0

/-- A data fork of an empty file, open for reading and writing. -/
def dataOfork : Ofork := ⟨false, true, false, false, true, 1, openForks⟩

/-- The request is granted: the byte was free, is recorded as the fork's and locked in the
kernel. -/
theorem byteLock_lockBandByte :
    let after := byteLock (granting 0) (fun _ => some dataOfork) true lockBandByte
    (dataOfork.ad.dataFork.lock = [] ∧ dataOfork.ad.dataFork.held adFilelockBase = .free) ∧
    after.1 = .ok ∧
    after.2.2.map (fun of => of.ad.dataFork.lock) =
      some [⟨⟨.wrlck, adFilelockBase, 1⟩, 1, adFilelockBase⟩] ∧
    after.2.2.map (fun of => of.ad.dataFork.held adFilelockBase) = some .wr := by
  decide +kernel

end Netatalk.AdLock
