import Netatalk.EnumerateSlots

/-! # Batches of a directory that does not change

A client lists a directory by requests of which each asks for the index after the last name it was
given.  Between them it may list any other directories, which compete for the slots.  The batches
are the visible names of the kinds it asks for, in the order of the directory, and then the end is
reported, as long as the next index fits the request: two of the three requests have 16 bits for it,
so behind 65535 names they cannot go on (`last_index_wraps`).

In a slot the directory's listing is in one of two states.  Whatever was asked before, a listing
whose position counts no name has no listed name before it (`Saved`); that is what a first request
needs.  Within a pass the position counts the names given so far (`Paged`).  A listing that has lost
its slot is read again, and the walk to the index counts the same names. -/

namespace Netatalk.Enumerate

open List

/-! ### Directories that do not change -/

/-- Requests find the directory, with these names; the kind `readdir` tells of a name is that of its
stat, if the stat succeeds. -/
structure Steady (f : Folder) (dirents : List Dirent) : Prop where
  dirlookup : f.dirlookup = none
  cname : f.cname = none
  stat : ∃ st, f.stat = .ok st
  refresh : f.refresh = none
  read : f.dirents = .ok dirents
  agrees : ∀ de ∈ dirents, ∀ k, de.dtype = some k →
    f.statName de.name = some k ∨ f.statName de.name = none

/-- A name is listed if the bitmap for its kind is not zero. -/
def visibleAs (bitmap : Kind → ℕ) (name : List UInt8) : Option Kind → Option Listed
  | none => none
  | some k => if bitmap k = 0 then none else some (name, k)

/-- The visible names of the kinds that two bitmaps ask for, in the order of the directory; the
virtual icon comes last. -/
def visible (f : Folder) (dirents : List Dirent) (bitmap : Kind → ℕ) : List Listed :=
  dirents.filterMap (fun de => visibleAs bitmap de.name (f.statName de.name)) ++
    match f.icon with
    | none => []
    | some de => (visibleAs bitmap de.name (some .file)).toList

variable {f : Folder} {dirents : List Dirent} {req : Request}

theorem listed_eq_visibleAs (r : Rec) :
    listed f req r = visibleAs req.bitmap r.name (kindOf f r) := by
  unfold listed visibleAs
  cases kindOf f r <;> rfl

theorem sdKind_ne_icon (de : Dirent) : sdKind de ≠ sdIcon := by
  unfold sdKind
  split <;> decide

theorem listing_recsOf : listing f req (recsOf f dirents) = visible f dirents req.bitmap := by
  unfold recsOf visible
  rw [listing_append]
  congr 1
  · rw [listing, filterMap_map]
    apply filterMap_congr
    intro de _
    rw [Function.comp_apply, listed_eq_visibleAs, kindOf, if_neg (sdKind_ne_icon de)]
  · cases f.icon with
    | none => rfl
    | some de =>
      cases visibleAs req.bitmap de.name (some .file) <;> rfl

theorem good_recsOf (hf : Steady f dirents) : ∀ r ∈ recsOf f dirents, Good f r := by
  intro r hr
  rcases mem_append.mp hr with hr | hr
  · obtain ⟨de, hde, rfl⟩ := List.mem_map.mp hr
    have hagrees := hf.agrees de hde
    refine ⟨{ de with }, ?_, ?_, ?_, ?_⟩
    all_goals
      simp only [sdKind]
      cases hk : de.dtype with
      | none => simp [sdUnknown, sdFile, sdDir, sdSkip, sdIcon]
      | some k =>
        have := hagrees k hk
        cases k <;> simp [sdUnknown, sdFile, sdDir, sdSkip, sdIcon] <;>
          rcases this with h | h <;> simp [h]
  · cases hicon : f.icon with
    | none =>
      rw [hicon] at hr
      cases hr
    | some de =>
      rw [hicon] at hr
      obtain rfl := mem_singleton.mp hr
      exact ⟨{ de with }, by simp, by simp [sdIcon, sdFile], by simp [sdIcon, sdDir],
        by simp [sdIcon, sdSkip]⟩

/-! ### Saved listings -/

/-- The listing holds the records of the directory, the position between `pre` and `post`. -/
structure Holds (f : Folder) (dirents : List Dirent) (sd : Savedir) (pre post : List Rec) :
    Prop where
  pos : At sd pre post
  same : List.Forall₂ (Same f) (recsOf f dirents) (pre ++ post)

/-- A listing of the directory, whatever it was used for: a position that counts no name has no
listed name before it. -/
def Saved (f : Folder) (dirents : List Dirent) (sd : Savedir) : Prop :=
  ∃ pre post, Holds f dirents sd pre post ∧ 1 ≤ sd.sindex ∧
    (sd.sindex = 1 → ∀ req : Request, req.kinds = sd.kinds → listing f req pre = [])

/-- A listing whose position counts the `n` names a pass has listed. -/
def Paged (f : Folder) (dirents : List Dirent) (req : Request) (n : ℕ) (sd : Savedir) : Prop :=
  ∃ pre post, Holds f dirents sd pre post ∧ sd.kinds = req.kinds ∧ sd.sindex = n + 1 ∧
    (listing f req pre).length = n

variable {fresh : Bool} {req' : Request} {sd' : Savedir}

section holds
variable {sd : Savedir} {pre post : List Rec} (h : Holds f dirents sd pre post)
include h

theorem Holds.same_mem : ∀ r' ∈ pre ++ post, ∃ r ∈ recsOf f dirents, Same f r r' :=
  Same.of_mem h.same

theorem Holds.good_all : ∀ r ∈ pre ++ post, Good f r := by
  intro r hr
  obtain ⟨_, _, hsame⟩ := h.same_mem r hr
  exact hsame.good

theorem Holds.good : ∀ r ∈ post, Good f r :=
  fun r hr => h.good_all r (mem_append_right pre hr)

theorem Holds.fits (hfit : ∀ r ∈ recsOf f dirents, Fits f req r) :
    ∀ r ∈ post, Fits f req r := by
  intro r hr
  obtain ⟨r₀, hr₀, hsame⟩ := h.same_mem r (mem_append_right pre hr)
  exact Fits.of_same hsame (hfit r₀ hr₀)

theorem Holds.listing :
    visible f dirents req.bitmap = Enumerate.listing f req pre ++ Enumerate.listing f req post := by
  rw [← listing_recsOf, ← listing_append]
  exact (listing_same h.same).symm

/-- The records behind the position have been looked at. -/
theorem Holds.of_same {mid post' : List Rec}
    (hsame : List.Forall₂ (Same f) post (mid ++ post')) (hat : At sd' (pre ++ mid) post') :
    Holds f dirents sd' (pre ++ mid) post' := by
  refine ⟨hat, ?_⟩
  rw [append_assoc]
  have hpre : Forall₂ (Same f) pre pre :=
    Same.refl_list fun r hr => h.good_all r (mem_append_left post hr)
  exact Same.trans_list h.same (rel_append hpre hsame)

theorem Holds.rewind (hb : sd'.bytes = sd.bytes) (hl : sd'.last = 0) :
    Holds f dirents sd' [] (pre ++ post) := by
  refine ⟨⟨?_, hl⟩, h.same⟩
  rw [hb, h.pos.bytes]
  simp

end holds

variable {sd : Savedir} {req : Request} {n : ℕ}

theorem bitmap_eq_zero_iff (h : req.kinds = req'.kinds) (k : Kind) :
    req.bitmap k = 0 ↔ req'.bitmap k = 0 := by
  unfold Request.kinds at h
  cases k with
  | file | dir =>
    rw [Request.bitmap, Request.bitmap]
    split_ifs at h <;> omega

theorem listing_congr (h : req.kinds = req'.kinds) (l : List Rec) :
    listing f req l = listing f req' l := by
  apply filterMap_congr
  intro r _
  unfold listed
  cases kindOf f r with
  | none => rfl
  | some k => simp only [bitmap_eq_zero_iff h k]

theorem kinds_of_bitmap (h : req'.bitmap = req.bitmap) : req'.kinds = req.kinds := by
  have hf : req'.fbitmap = req.fbitmap := congrFun h .file
  have hd : req'.dbitmap = req.dbitmap := congrFun h .dir
  rw [Request.kinds, Request.kinds, hf, hd]

theorem Paged.congr (h : Paged f dirents req n sd) (hreq : req'.kinds = req.kinds) :
    Paged f dirents req' n sd := by
  obtain ⟨pre, post, hholds, hkinds, hs, hlen⟩ := h
  exact ⟨pre, post, hholds, hkinds.trans hreq.symm, hs, by rw [listing_congr hreq, hlen]⟩

theorem position_saved (h : Saved f dirents sd) :
    Saved f dirents (position req sd) ∧ (position req sd).kinds = req.kinds := by
  unfold position
  split_ifs with hc
  · obtain ⟨pre, post, hholds, _⟩ := h
    exact ⟨⟨[], pre ++ post, hholds.rewind rfl rfl, le_rfl, fun _ _ _ => rfl⟩, rfl⟩
  · rw [not_or, not_not] at hc
    exact ⟨h, hc.2.symm⟩

/-- What a request that has walked to a position between `pre` and `post` answers and leaves: with a
reply the records `mid` have been passed, which it lists. -/
structure Replied (f : Folder) (dirents : List Dirent) (req : Request) (sd : Savedir)
    (pre : List Rec) (r : Except AfpErr (List Listed) × Savedir) (mid post' : List Rec) : Prop where
  holds : Holds f dirents r.2 (pre ++ mid) post'
  kinds : r.2.kinds = sd.kinds
  ok : ∀ es, r.1 = .ok es → es ≠ [] ∧ es = listing f req mid ∧ r.2.sindex = req.sindex + es.length
  error : ∀ e, r.1 = .error e → listing f req mid = [] ∧ r.2.sindex = sd.sindex
  /-- the only error of a batch that does not fail -/
  ended : ∀ e es, r.1 = .error e → (batch f req req.limit [] 6 sd).1 = .ok es →
    e = .noobj ∧ (req.reqcnt = 0 ∨ post' = [])

theorem list_of_reached {sd sd₁ : Savedir} {pre post : List Rec}
    (hwalk : walk f fresh req (position req sd) = (true, sd₁)) (h : Holds f dirents sd₁ pre post) :
    ∃ mid post', Replied f dirents req sd₁ pre (list f req fresh sd) mid post' := by
  obtain ⟨mid, post', hb⟩ := @batch_spec f req [] req.limit 6 sd₁ pre post h.pos h.good
  unfold list
  rw [hwalk]
  simp only
  cases hres : batch f req req.limit [] 6 sd₁ with
  | mk res sd' =>
    rw [hres] at hb
    cases res with
    | error =>
      have hback : At (sd'.seek sd₁.last) (pre ++ []) (mid ++ post') := by
        refine ⟨?_, by rw [append_nil]; exact h.pos.last⟩
        rw [Savedir.bytes_seek, hb.pos.bytes]
        simp
      refine ⟨[], mid ++ post', h.of_same hb.same hback, hb.frame.kinds, by simp,
        fun _ _ => ⟨rfl, hb.sindex⟩, ?_⟩
      intro _ _ _ hok
      rw [hres] at hok
      cases hok
    | ok es =>
      have hreply : es = listing f req mid := hb.reply es rfl
      cases es with
      | nil =>
        refine ⟨mid, post', h.of_same hb.same hb.pos, hb.frame.kinds, by simp,
          fun _ _ => ⟨hreply.symm, hb.sindex⟩, ?_⟩
        intro e _ he _
        exact ⟨(Except.error.inj he).symm, hb.empty rfl⟩
      | cons =>
        refine ⟨mid, post', h.of_same hb.same ⟨hb.pos.bytes, hb.pos.last⟩, hb.frame.kinds,
          ?_, by simp, by simp⟩
        rintro _ ⟨rfl⟩
        exact ⟨by simp, hreply, rfl⟩

theorem list_saved (h : Saved f dirents sd) (hreq : 1 ≤ req.sindex) :
    Saved f dirents (list f req fresh sd).2 := by
  obtain ⟨⟨pre, post, hholds, hone, hnone⟩, hkinds⟩ := @position_saved f dirents sd req h
  obtain ⟨mid, post₁, hw⟩ := @walk_spec f req fresh _ pre post hholds.pos hholds.good
  have hholds₁ := hholds.of_same hw.same hw.pos
  have hkinds₁ := hw.frame.kinds.trans hkinds
  have hcount := hw.counted
  -- a walk that has counted nothing has passed nothing listed
  have hnone₁ : (walk f fresh req (position req sd)).2.sindex = 1 →
      listing f req (pre ++ mid) = [] := by
    intro h₁
    have hmid : listing f req mid = [] := eq_nil_of_length_eq_zero (by omega)
    rw [listing_append, hmid, hnone (by omega) req hkinds.symm, append_nil]
  cases hwalk : walk f fresh req (position req sd) with
  | mk b sd₁ =>
    rw [hwalk] at hholds₁ hkinds₁ hcount hnone₁
    simp only at hholds₁ hkinds₁ hcount hnone₁
    cases b with
    | false =>
      have hlist : (list f req fresh sd).2 = sd₁ := by
        unfold list
        rw [hwalk]
      rw [hlist]
      refine ⟨pre ++ mid, post₁, hholds₁, by omega, ?_⟩
      intro h₁ req' hreq'
      rw [listing_congr (hreq'.trans hkinds₁)]
      exact hnone₁ h₁
    | true =>
      obtain ⟨mid', post', hr⟩ := list_of_reached hwalk hholds₁
      cases hres : (list f req fresh sd).1 with
      | error e =>
        obtain ⟨hmid', hs⟩ := hr.error e hres
        refine ⟨_, post', hr.holds, by omega, ?_⟩
        intro h₁ req' hreq'
        rw [listing_congr ((hreq'.trans hr.kinds).trans hkinds₁), listing_append, hmid',
          hnone₁ (by omega), append_nil]
      | ok es =>
        obtain ⟨hne, _, hs⟩ := hr.ok es hres
        have := length_pos_iff.mpr hne
        exact ⟨_, post', hr.holds, by omega, by omega⟩

/-- The walk of a request whose index follows the `n` names listed before it, in a listing whose
position counts them or in one just read. -/
theorem walk_page (hsindex : req.sindex = n + 1) (hn : n ≤ (visible f dirents req.bitmap).length)
    (h : Paged f dirents req n sd ∨ fresh = true ∧ Paged f dirents req 0 sd) :
    ∃ sd₁ pre post, walk f fresh req sd = (true, sd₁) ∧ Holds f dirents sd₁ pre post ∧
      sd₁.kinds = req.kinds ∧ (listing f req pre).length = n := by
  rcases h with ⟨pre, post, hholds, hkinds, hs, hlen⟩ | ⟨rfl, pre, post, hholds, hkinds, hs, hlen⟩
  · exact ⟨sd, pre, post, walk_reached (by omega), hholds, hkinds, hlen⟩
  · obtain ⟨mid, post', hw⟩ := @walk_spec f req true sd pre post hholds.pos hholds.good
    have hcount := hw.counted_fresh rfl
    have hle := hw.le
    have hholds' := hholds.of_same hw.same hw.pos
    have hlen' : (listing f req (pre ++ mid)).length = (listing f req mid).length := by
      rw [listing_append, length_append, hlen, zero_add]
    cases hwalk : walk f true req sd with
    | mk b sd₁ =>
      rw [hwalk] at hw hcount hle hholds'
      simp only at hcount hle hholds'
      cases b with
      | false =>
        -- the records do not end before the index
        obtain ⟨rfl, hlt⟩ := hw.ended rfl
        have hnil : (listing f req []).length = 0 := rfl
        have hall : (visible f dirents req.bitmap).length = _ :=
          congrArg List.length hholds'.listing
        rw [length_append] at hall
        simp only at hlt
        omega
      | true =>
        have hge := hw.reached rfl
        simp only at hge
        exact ⟨sd₁, pre ++ mid, post', rfl, hholds', hw.frame.kinds.trans hkinds,
          by rw [hlen']; omega⟩

/-- A request of a pass: the reply is the next part of the directory, or there is none and all of it
has been listed. -/
theorem list_page (hsindex : req.sindex = n + 1) (hreq : 1 ≤ req.reqcnt)
    (hfit : ∀ r ∈ recsOf f dirents, Fits f req r) (hn : n ≤ (visible f dirents req.bitmap).length)
    (h : Paged f dirents req n (position req sd) ∨
      fresh = true ∧ Paged f dirents req 0 (position req sd)) :
    (∃ es, es ≠ [] ∧ (list f req fresh sd).1 = .ok es ∧
      es <+: (visible f dirents req.bitmap).drop n ∧
      Paged f dirents req (n + es.length) (list f req fresh sd).2) ∨
    (list f req fresh sd).1 = .error .noobj ∧ n = (visible f dirents req.bitmap).length := by
  obtain ⟨sd₁, pre, post, hwalk, hholds, hkinds, hlen⟩ := walk_page hsindex hn h
  obtain ⟨mid, post', hr⟩ := list_of_reached hwalk hholds
  obtain ⟨es₀, hes₀⟩ :=
    @batch_ok f req [] 6 sd₁ pre post hholds.pos hholds.good (hholds.fits hfit) fun _ => rfl
  have hall : visible f dirents req.bitmap =
      listing f req pre ++ (listing f req mid ++ listing f req post') := by
    rw [hr.holds.listing, listing_append, append_assoc]
  cases hres : (list f req fresh sd).1 with
  | error e =>
    obtain ⟨rfl, hend⟩ := hr.ended e es₀ hres hes₀
    obtain ⟨hmid, _⟩ := hr.error _ hres
    have hpost : post' = [] := hend.resolve_left (by omega)
    refine .inr ⟨rfl, ?_⟩
    rw [hall, hmid, hpost]
    simpa [listing] using hlen.symm
  | ok es =>
    obtain ⟨hne, hes, hs⟩ := hr.ok es hres
    refine .inl ⟨es, hne, rfl, ?_, pre ++ mid, post', hr.holds, hr.kinds.trans hkinds, by omega,
      ?_⟩
    · rw [hall, ← hlen, drop_left, ← hes]
      exact prefix_append _ _
    · rw [listing_append, length_append, hlen, ← hes]

/-! ### The listing a request selects -/

theorem serve_steady (hf : Steady f dirents) (sd : Savedir) : ∃ st, serve f req sd =
      if stamped f st sd && (req.sindex ≠ 1 || !sd.left) then list f req false sd
      else list f req true (sdRead f st req.clock dirents sd) := by
  obtain ⟨st, hst⟩ := hf.stat
  refine ⟨st, ?_⟩
  unfold serve sdFetch
  rw [hst, hf.refresh, hf.read]
  simp only
  cases stamped f st sd && (req.sindex ≠ 1 || !sd.left) <;> rfl

theorem sdRead_saved (hf : Steady f dirents) (st : Stat) (clock : Option Timespec) (sd : Savedir) :
    Saved f dirents (sdRead f st clock dirents sd) :=
  ⟨[], recsOf f dirents, ⟨sdRead_at f st clock dirents sd, Same.refl_list (good_recsOf hf)⟩,
    le_rfl, fun _ _ _ => rfl⟩

/-- The listing that a request starts from is that of its directory, or it reads one. -/
theorem serve_cases (hf : Steady f dirents) {P : Savedir → Prop}
    (h : sd.key = none ∨ sd.key = some f.key ∧ P sd) :
    (∃ sd', P sd' ∧ serve f req sd = list f req false sd') ∨
      ∃ sd', Saved f dirents sd' ∧ sd'.sindex = 1 ∧ serve f req sd = list f req true sd' := by
  obtain ⟨st, hserve⟩ := @serve_steady f dirents req hf sd
  rw [hserve]
  split_ifs with hst
  · refine .inl ⟨sd, ?_, rfl⟩
    rcases h with hnone | ⟨_, hP⟩
    · -- an empty slot has no stamp
      simp only [stamped, Bool.and_eq_true, decide_eq_true_eq] at hst
      have := f.did_pos
      rw [Savedir.key, if_neg (by omega)] at hnone
      cases hnone
    · exact hP
  · exact .inr ⟨_, sdRead_saved hf st req.clock sd, rfl, rfl⟩

theorem position_paged (h : Saved f dirents sd) (hone : sd.sindex = 1 ∨ req.sindex = 1) :
    Paged f dirents req 0 (position req sd) := by
  obtain ⟨⟨pre, post, hholds, hpos, hnone⟩, hkinds⟩ := @position_saved f dirents sd req h
  have hs : (position req sd).sindex = 1 := by
    unfold position at hpos ⊢
    split_ifs at hpos ⊢ with hc
    · rfl
    · omega
  exact ⟨pre, post, hholds, hkinds, hs, by rw [hnone hs req hkinds.symm]; rfl⟩

theorem Paged.position (h : Paged f dirents req n sd) (hreq : req.sindex = n + 1) :
    position req sd = sd := by
  obtain ⟨_, _, _, hkinds, hs, _⟩ := h
  exact if_neg (by omega)

/-- Whatever a request asks for, it leaves a listing of the directory. -/
theorem serve_saved (hf : Steady f dirents) (hreq : 1 ≤ req.sindex)
    (h : sd.key = none ∨ sd.key = some f.key ∧ Saved f dirents sd) :
    Saved f dirents (serve f req sd).2 := by
  rcases serve_cases hf h with ⟨sd', hsaved, heq⟩ | ⟨sd', hsaved, _, heq⟩
  · rw [heq]
    exact list_saved hsaved hreq
  · rw [heq]
    exact list_saved hsaved hreq

/-- What a listing is for a pass that has listed `n` names. -/
def Ready (f : Folder) (dirents : List Dirent) (req : Request) (n : ℕ) (sd : Savedir) : Prop :=
  Paged f dirents req n sd ∨ n = 0 ∧ Saved f dirents sd

theorem serve_page (hf : Steady f dirents) (hsindex : req.sindex = n + 1) (hreq : 1 ≤ req.reqcnt)
    (hfit : ∀ r ∈ recsOf f dirents, Fits f req r) (hn : n ≤ (visible f dirents req.bitmap).length)
    (h : sd.key = none ∨ sd.key = some f.key ∧ Ready f dirents req n sd) :
    (∃ es, es ≠ [] ∧ (serve f req sd).1 = .ok es ∧
      es <+: (visible f dirents req.bitmap).drop n ∧
      Paged f dirents req (n + es.length) (serve f req sd).2) ∨
    (serve f req sd).1 = .error .noobj ∧ n = (visible f dirents req.bitmap).length := by
  rcases serve_cases hf h with ⟨sd', hready, heq⟩ | ⟨sd', hsaved, hone, heq⟩
  · rw [heq]
    apply list_page hsindex hreq hfit hn
    rcases hready with hpaged | ⟨rfl, hsaved⟩
    · exact .inl ((hpaged.position hsindex).symm ▸ hpaged)
    · exact .inl (position_paged hsaved (.inr hsindex))
  · rw [heq]
    exact list_page hsindex hreq hfit hn (.inr ⟨rfl, position_paged hsaved (.inl hone)⟩)

/-! ### Passes -/

/-- The states afpd can be in, whatever has been listed so far. -/
inductive Reach (f : Folder) : State → Prop
  | init : Reach f State.init
  | own {s : State} (req : Request) : Reach f s → Reach f (enumerate f req s).2
  | other {s : State} (g : Folder) (req : Request) :
      g.key ≠ f.key → Reach f s → Reach f (enumerate g req s).2

theorem Reach.mine (hf : Steady f dirents) {s : State} (h : Reach f s) :
    Mine f (Saved f dirents) s := by
  induction h with
  | init => exact fun _ => .inl rfl
  | @own s req _ ih =>
    by_cases ha : Accepts f req
    · exact (enumerate_accepts ih ha).2 _
        fun _ => serve_saved hf (Nat.pos_of_ne_zero ha.sindex) (selected_mine ih)
    · rw [Mine, enumerate_not_accepts ha]
      exact ih
  | other g req hg _ ih => exact enumerate_other ih hg

/-- A request for the kinds of the pass, the limits of whose reply hold each single entry. -/
structure Asks (f : Folder) (dirents : List Dirent) (bitmap : Kind → ℕ) (req : Request) : Prop where
  bitmap : req.bitmap = bitmap
  reqcnt : 1 ≤ req.reqcnt
  fits : ∀ r ∈ recsOf f dirents, Fits f req r

/-- Such a request that goes on after the names `es`: it asks for the index behind them. -/
structure Continues (f : Folder) (dirents : List Dirent) (bitmap : Kind → ℕ) (es : List Listed)
    (req : Request) : Prop extends Asks f dirents bitmap req where
  sindex : req.sindex = es.length + 1

/-- The request with another index. -/
def Request.at (req : Request) (i : ℕ) (h : i < 2 ^ req.ext.indexBits) : Request :=
  { req with sindex := i, sindex_lt := h }

theorem Asks.continues {bitmap : Kind → ℕ} {es : List Listed} (h : Asks f dirents bitmap req)
    (hi : es.length + 1 < 2 ^ req.ext.indexBits) :
    Continues f dirents bitmap es (req.at (es.length + 1) hi) :=
  ⟨{ h with }, rfl⟩

/-- A pass over the directory has had `n` batches, which list the names `es`. -/
inductive Pass (f : Folder) (dirents : List Dirent) (bitmap : Kind → ℕ) :
    ℕ → State → List Listed → Prop
  | start {s : State} : Reach f s → Pass f dirents bitmap 0 s []
  | other {n : ℕ} {s : State} {es : List Listed} (g : Folder) (req : Request) :
      g.key ≠ f.key → Pass f dirents bitmap n s es →
      Pass f dirents bitmap n (enumerate g req s).2 es
  | batch {n : ℕ} {s : State} {es es' : List Listed} {req : Request} :
      Continues f dirents bitmap es req → (enumerate f req s).1 = .ok es' →
      Pass f dirents bitmap n s es →
      Pass f dirents bitmap (n + 1) (enumerate f req s).2 (es ++ es')

/-- What holds in a pass. -/
structure Passing (f : Folder) (dirents : List Dirent) (bitmap : Kind → ℕ) (n : ℕ) (s : State)
    (es : List Listed) : Prop where
  listed : es <+: visible f dirents bitmap
  batches : n ≤ es.length
  mine : Mine f (fun sd => ∀ req, req.bitmap = bitmap → Ready f dirents req es.length sd) s

section pass
variable {bitmap : Kind → ℕ} {n : ℕ} {s : State} {es : List Listed}

/-- A request of a pass gives the next names, or none are left. -/
theorem Passing.next (hf : Steady f dirents) (hbit : ∃ k, bitmap k ≠ 0)
    (h : Passing f dirents bitmap n s es) (hreq : Continues f dirents bitmap es req) :
    (∃ es', es' ≠ [] ∧ (enumerate f req s).1 = .ok es' ∧
      Passing f dirents bitmap (n + 1) (enumerate f req s).2 (es ++ es')) ∨
    (enumerate f req s).1 = .error .noobj ∧ es = visible f dirents bitmap := by
  obtain ⟨rest, hrest⟩ := h.listed
  have hkind : ¬ (req.fbitmap = 0 ∧ req.dbitmap = 0) := by
    intro ⟨hfile, hdir⟩
    obtain ⟨k, hk⟩ := hbit
    rw [← hreq.bitmap] at hk
    cases k with
    | file => exact hk hfile
    | dir => exact hk hdir
  have hn : es.length ≤ (visible f dirents req.bitmap).length := by
    rw [hreq.bitmap]
    exact h.listed.length_le
  have haccepts : Accepts f req :=
    ⟨hf.dirlookup, hkind, by rw [hreq.sindex]; exact Nat.succ_ne_zero _, hf.cname⟩
  obtain ⟨hreply, hmine⟩ := enumerate_accepts h.mine haccepts
  have hready := (selected_mine h.mine).imp_right (And.imp_right fun hall => hall req hreq.bitmap)
  have hpage := serve_page hf hreq.sindex hreq.reqcnt hreq.fits hn hready
  rw [hreq.bitmap, ← hrest, drop_left, ← hreply] at hpage
  rcases hpage with ⟨es', hne, hok, ⟨rest', hes'⟩, hpaged⟩ | ⟨herr, hlen⟩
  · refine .inl ⟨es', hne, hok, ?_, ?_, ?_⟩
    · rw [← hrest, ← hes', ← append_assoc]
      exact prefix_append _ _
    · have hlen' := length_pos_iff.mpr hne
      have hbatches := h.batches
      rw [length_append]
      omega
    · apply hmine
      intro _ req' hreq'
      rw [length_append]
      exact .inl (hpaged.congr (kinds_of_bitmap (hreq'.trans hreq.bitmap.symm)))
  · refine .inr ⟨herr, ?_⟩
    have hnil : rest = [] := by
      rw [length_append] at hlen
      exact eq_nil_of_length_eq_zero (by omega)
    rw [← hrest, hnil, append_nil]

theorem Pass.passing (hf : Steady f dirents) (hbit : ∃ k, bitmap k ≠ 0)
    (h : Pass f dirents bitmap n s es) : Passing f dirents bitmap n s es := by
  induction h with
  | start hs =>
    refine ⟨ nil_prefix, le_rfl, ?_⟩
    intro hroot
    refine (hs.mine hf hroot).imp_right ?_
    rintro ⟨sd, hsd, hsaved⟩
    exact ⟨sd, hsd, fun _ _ => .inr ⟨rfl, hsaved⟩⟩
  | other g req hg _ ih => exact { ih with mine := enumerate_other ih.mine hg }
  | batch hreq hok _ ih =>
    rcases ih.next hf hbit hreq with ⟨es', _, hok', hnext⟩ | ⟨herr, _⟩
    · rw [hok] at hok'
      cases hok'
      exact hnext
    · rw [hok] at herr
      cases herr

/-- The batches of a pass list the visible names of the kinds it asks for, each once and in the
order of the directory: where the index behind all names fits the request, any request can go on,
and gives a further part of those names, or all of them have been listed and it gives
`AFPERR_NOOBJ`.  There are at most as many batches as names. -/
theorem pass_lists_visible (hf : Steady f dirents) (hbit : ∃ k, bitmap k ≠ 0)
    (hpass : Pass f dirents bitmap n s es) (hreq : Asks f dirents bitmap req)
    (hindex : (visible f dirents bitmap).length + 1 < 2 ^ req.ext.indexBits) :
    n ≤ (visible f dirents bitmap).length ∧ ∃ h : es.length + 1 < 2 ^ req.ext.indexBits,
      (∃ es', es' ≠ [] ∧ (enumerate f (req.at _ h) s).1 = .ok es' ∧
          es ++ es' <+: visible f dirents bitmap) ∨
        (enumerate f (req.at _ h) s).1 = .error .noobj ∧ es = visible f dirents bitmap := by
  have h := hpass.passing hf hbit
  have hle := h.listed.length_le
  refine ⟨h.batches.trans hle, by omega, ?_⟩
  rcases h.next hf hbit (hreq.continues (by omega)) with ⟨es', hne, hok, hnext⟩ | hend
  · exact .inl ⟨es', hne, hok, hnext.listed⟩
  · exact .inr hend

/-- A pass comes to the end of the names if their indexes fit the request. -/
theorem Pass.complete (hf : Steady f dirents) (hbit : ∃ k, bitmap k ≠ 0)
    (hreq : Asks f dirents bitmap req)
    (hindex : (visible f dirents bitmap).length < 2 ^ req.ext.indexBits)
    (hpass : Pass f dirents bitmap n s es) :
    ∃ n s, Pass f dirents bitmap n s (visible f dirents bitmap) := by
  induction hm : (visible f dirents bitmap).length - es.length using Nat.strongRecOn
    generalizing n s es with
  | ind m ih =>
    have h := hpass.passing hf hbit
    rcases h.listed.length_le.eq_or_lt with heq | hlt
    · exact ⟨n, s, h.listed.eq_of_length heq ▸ hpass⟩
    · have hcont := @Asks.continues _ _ _ _ es hreq (by omega)
      rcases h.next hf hbit hcont with ⟨es', hne, hok, _⟩ | ⟨_, hend⟩
      · have := length_pos_iff.mpr hne
        exact ih _ (by rw [length_append]; omega) (.batch hcont hok hpass) rfl
      · exact ⟨n, s, hend ▸ hpass⟩

end pass

/-- A request for one name. -/
def oneName : Request := ⟨.enumerate, 64, 64, 1, 1, Ext.one_lt _, 5000, 65536, some ⟨2000, 0⟩⟩

section folderWith
variable (dirents : List Dirent) (n : ℕ)

theorem asks_folderWith : Asks (folderWith dirents n) dirents oneName.bitmap oneName := by
  refine ⟨rfl, by decide, fun r _ k _ _ => ⟨40, ?_, by decide, by decide⟩⟩
  cases k with
  | dir => rfl
  | file =>
    unfold params
    split_ifs <;> rfl

theorem steady_folderWith (hk : ∀ de ∈ dirents, ∀ k, de.dtype = some k →
    (folderWith dirents n).statName de.name = some k) :
    Steady (folderWith dirents n) dirents :=
  ⟨rfl, rfl, ⟨_, rfl⟩, rfl, rfl, fun de hde k hde' => .inl (hk de hde k hde')⟩

end folderWith

/-- A file and a folder, of which `readdir` tells the kind of the first only. -/
def twoNames : List Dirent :=
  [⟨[97], some .file, by decide, by decide⟩, ⟨[98], none, by decide, by decide⟩]

theorem pass_lists_visible_twoNames : ∃ es, es ≠ [] ∧ es <+: [([97], Kind.file), ([98], Kind.dir)] ∧
      (enumerate (folderWith twoNames 0) oneName
        (enumerate (folderWith twoNames 1) oneName State.init).2).1 = .ok es := by
  have hsteady : Steady (folderWith twoNames 0) twoNames := by
    refine steady_folderWith _ _ fun de hde k hk => ?_
    simp only [twoNames, mem_cons, not_mem_nil, or_false] at hde
    rcases hde with rfl | rfl
    · cases hk
      rfl
    · cases hk
  have hpass : Pass (folderWith twoNames 0) twoNames oneName.bitmap 0
      (enumerate (folderWith twoNames 1) oneName State.init).2 [] :=
    .other _ _ (by decide) (.start .init)
  obtain ⟨_, _, ⟨es, hne, hok, hes⟩ | ⟨_, hnil⟩⟩ := pass_lists_visible hsteady ⟨.file, by decide⟩
    hpass (asks_folderWith twoNames 0) (by decide)
  · exact ⟨es, hne, hes, hok⟩
  · exact absurd hnil (by decide)

/-- 65535 names of four letters. -/
def manyNames : List Dirent :=
  (range 65535).map fun i =>
    ⟨[i / 4096, i / 256, i / 16, i].map fun n => UInt8.ofNat (97 + n % 16), none, by simp, by simp⟩

def manyIn : Folder := folderWith manyNames 0

def manyListed : List Listed := visible manyIn manyNames oneName.bitmap

theorem length_manyListed : manyListed.length = 65535 := by
  rw [manyListed, visible, length_append, filterMap_length_eq_length.mpr]
  · simp [manyNames, manyIn, folderWith]
  · intro de hde
    obtain ⟨i, -, rfl⟩ := List.mem_map.mp hde
    simp [visibleAs, manyIn, folderWith, oneName, Request.bitmap]

/-- A pass has listed all of them.  Of the three requests only `FPEnumerateExt2` can go on; the
index 65536 is 0 in 16 bits, and that is an error of its own. -/
theorem last_index_wraps : ∃ n s,
    Pass manyIn manyNames oneName.bitmap n s manyListed ∧ manyListed.length = 65535 ∧
    (∀ req, Continues manyIn manyNames oneName.bitmap manyListed req →
      req.ext = .enumerateExt2) ∧
    (enumerate manyIn (oneName.at (65536 % 2 ^ 16) (by decide)) s).1 = .error .param := by
  have hsteady : Steady manyIn manyNames := by
    refine steady_folderWith _ _ fun de hde k hk => ?_
    obtain ⟨i, -, rfl⟩ := List.mem_map.mp hde
    cases hk
  have hfits : manyListed.length < 2 ^ oneName.ext.indexBits := by
    rw [length_manyListed]
    decide
  obtain ⟨n, s, hpass⟩ := Pass.complete hsteady ⟨.file, by decide⟩ (asks_folderWith manyNames 0)
    hfits (.start .init)
  refine ⟨n, s, hpass, length_manyListed, fun req hreq => ?_, rfl⟩
  have hlt := req.sindex_lt
  rw [hreq.sindex, length_manyListed] at hlt
  cases hext : req.ext with
  | enumerateExt2 => rfl
  | enumerate | enumerateExt =>
    rw [hext] at hlt
    exact absurd hlt (by decide)

end Netatalk.Enumerate
