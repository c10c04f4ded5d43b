import Netatalk.Enumerate

/-! # What a saved listing holds

A position in a listing splits its records into those before and those behind it (`At`).  A stat
changes the mark of a record and nothing else, and to the effect that the mark agrees with the stat
(`Same`).  What a request lists of a run of records, `listing`, depends on the stats of the names
only, so it is the same for all states of one listing. -/

namespace Netatalk.Enumerate

open List
open Rec (listBytes)

/-! ### Positions -/

/-- The listing holds the records `pre` and `post`, and its position is between them. -/
structure At (sd : Savedir) (pre post : List Rec) : Prop where
  bytes : sd.bytes = listBytes pre ++ (listBytes post ++ [0])
  last : sd.last = (listBytes pre).length

namespace At

variable {sd : Savedir} {pre post : List Rec} {r : Rec}

theorem byte_end (h : At sd pre []) : (sd.byte sd.last).toNat = 0 := by
  rw [Savedir.byte, h.bytes, h.last]
  simp [getD_eq_getElem?_getD]

section cons
variable (h : At sd pre (r :: post))
include h

theorem bytes_cons : sd.bytes = listBytes pre ++ (r.bytes ++ (listBytes post ++ [0])) := by
  rw [h.bytes, Rec.listBytes_cons, append_assoc]

theorem byte_length (hr : r.Fits) : (sd.byte sd.last).toNat = r.name.length := by
  rw [Savedir.byte, h.bytes_cons, h.last, Rec.getD_length, Rec.toNat_length hr]

theorem name : (sd.bytes.drop (sd.last + 1)).take r.name.length = r.name := by
  rw [h.bytes_cons, h.last, Rec.take_name]

theorem byte_mark : sd.byte (sd.last + 1 + r.name.length + 1) = r.mark := by
  have heq : sd.last + 1 + r.name.length + 1 = (listBytes pre).length + r.name.length + 2 := by
    rw [h.last]
    omega
  rw [Savedir.byte, heq, h.bytes_cons, Rec.getD_mark]

theorem setMark (m : UInt8) :
    At (sd.setByte (sd.last + 1 + r.name.length + 1) m) pre ({ r with mark := m } :: post) := by
  have heq : sd.last + 1 + r.name.length + 1 = (listBytes pre).length + r.name.length + 2 := by
    rw [h.last]
    omega
  refine ⟨?_, h.last⟩
  rw [Savedir.bytes_setByte, heq, h.bytes_cons, Rec.set_mark, Rec.listBytes_cons, append_assoc]

theorem next : At (sd.seek (sd.last + 1 + r.name.length + 2)) (pre ++ [r]) post := by
  refine ⟨?_, ?_⟩
  · rw [Savedir.bytes_seek, h.bytes_cons]
    simp
  · rw [h.last, Rec.listBytes_append]
    simp
    omega

end cons

theorem count (h : At sd pre post) : At sd.count pre post := { h with }

theorem back (h : At sd (pre ++ post) post') {i : ℕ} (hi : i = (listBytes pre).length) :
    At (sd.seek i) pre (post ++ post') := by
  refine ⟨?_, hi⟩
  rw [Savedir.bytes_seek, h.bytes]
  simp

end At

/-! ### Marks -/

variable {f : Folder} {req : Request}

/-- A record of the listing of a folder: its mark says nothing that the stat of its name does not
bear out. -/
structure Good (f : Folder) (r : Rec) : Prop where
  fits : r.Fits
  known : r.mark = sdUnknown ∨ r.mark = sdFile ∨ r.mark = sdDir ∨ r.mark = sdSkip ∨ r.mark = sdIcon
  file : r.mark = sdFile → f.statName r.name ≠ some .dir
  dir : r.mark = sdDir → f.statName r.name ≠ some .file
  skip : r.mark = sdSkip → f.statName r.name = none

/-- What `sd_stat` comes to for a record. -/
def kindOf (f : Folder) (r : Rec) : Option Kind :=
  if r.mark = sdIcon then some .file else f.statName r.name

/-- The record `r'` is `r` after stats of its name. -/
structure Same (f : Folder) (r r' : Rec) : Prop where
  name : r'.name = r.name
  icon : r'.mark = sdIcon ↔ r.mark = sdIcon
  good : Good f r'

variable {r : Rec} {sd : Savedir}

theorem Same.refl (h : Good f r) : Same f r r := ⟨rfl, Iff.rfl, h⟩

variable {b : Bool} {l l' mid post' : List Rec} {r' : Rec} {sd' sd₁ : Savedir}

theorem Same.trans {r r'' : Rec} (h : Same f r r') (h' : Same f r' r'') : Same f r r'' :=
  ⟨h'.name.trans h.name, h'.icon.trans h.icon, h'.good⟩

/-- A mark that a stat has told. -/
theorem Same.of_stat {m : UInt8} (hr : Good f r) (hicon : r.mark ≠ sdIcon)
    (hm : m = sdSkip ∧ f.statName r.name = none ∨ m = sdDir ∧ f.statName r.name = some .dir ∨
      m = sdFile ∧ f.statName r.name = some .file) : Same f r { r with mark := m } := by
  have hfits : Rec.Fits { r with mark := m } := ⟨hr.fits.pos, hr.fits.le⟩
  rcases hm with ⟨rfl, h⟩ | ⟨rfl, h⟩ | ⟨rfl, h⟩
  · exact ⟨rfl, by simp [sdSkip, sdIcon] at hicon ⊢; exact hicon, hfits, by simp,
      by simp [sdSkip, sdFile], by simp [sdSkip, sdDir], fun _ => h⟩
  · exact ⟨rfl, by simp [sdDir, sdIcon] at hicon ⊢; exact hicon, hfits, by simp,
      by simp [sdDir, sdFile], fun _ => by simp [h], by simp [sdSkip, sdDir]⟩
  · exact ⟨rfl, by simp [sdFile, sdIcon] at hicon ⊢; exact hicon, hfits, by simp,
      fun _ => by simp [h], by simp [sdDir, sdFile], by simp [sdSkip, sdFile]⟩

theorem Same.kindOf (h : Same f r r') : kindOf f r' = kindOf f r := by
  unfold Enumerate.kindOf
  simp only [h.icon, h.name]

/-- What a request lists of a record. -/
def listed (f : Folder) (req : Request) (r : Rec) : Option Listed :=
  match kindOf f r with
  | none => none
  | some k => if req.bitmap k = 0 then none else some (r.name, k)

/-- What a request lists of a run of records. -/
def listing (f : Folder) (req : Request) (l : List Rec) : List Listed := l.filterMap (listed f req)

@[simp] theorem listing_append (l l' : List Rec) :
    listing f req (l ++ l') = listing f req l ++ listing f req l' := filterMap_append

theorem listing_same (h : List.Forall₂ (Same f) l l') : listing f req l' = listing f req l := by
  induction h with
  | nil => rfl
  | @cons r r' l l' hr _ ih =>
    have hlisted : listed f req r' = listed f req r := by
      unfold listed
      rw [hr.kindOf, hr.name]
    rw [listing, filterMap_cons, hlisted]
    rw [listing] at ih
    rw [ih]
    rfl

theorem Same.of_mem (h : List.Forall₂ (Same f) l l') : ∀ r' ∈ l', ∃ r ∈ l, Same f r r' := by
  induction h with
  | nil => simp
  | cons hr _ ih =>
    intro r' hmem
    rcases mem_cons.mp hmem with rfl | hmem
    · exact ⟨_, mem_cons_self, hr⟩
    · obtain ⟨r, hr, hsame⟩ := ih r' hmem
      exact ⟨r, mem_cons_of_mem _ hr, hsame⟩

theorem Same.refl_list (h : ∀ r ∈ l, Good f r) : List.Forall₂ (Same f) l l := by
  rw [forall₂_same]
  exact fun r hr => .refl (h r hr)

theorem Same.trans_list {l'' : List Rec} (h : List.Forall₂ (Same f) l l')
    (h' : List.Forall₂ (Same f) l' l'') : List.Forall₂ (Same f) l l'' := by
  induction h generalizing l'' with
  | nil => exact h'
  | cons hr _ ih =>
    cases h' with
    | cons hr' hl' => exact .cons (hr.trans hr') (ih hl')

/-! ### One record -/

/-- The fields of a listing that do not change while it is read. -/
structure Frame (sd sd' : Savedir) : Prop where
  vid : sd'.vid = sd.vid
  did : sd'.did = sd.did
  kinds : sd'.kinds = sd.kinds
  ino : sd'.ino = sd.ino
  ctime : sd'.ctime = sd.ctime

theorem Frame.refl (sd : Savedir) : Frame sd sd := ⟨rfl, rfl, rfl, rfl, rfl⟩

theorem Frame.trans {sd sd'' : Savedir} (h : Frame sd sd') (h' : Frame sd' sd'') : Frame sd sd'' :=
  ⟨h'.vid.trans h.vid, h'.did.trans h.did, h'.kinds.trans h.kinds, h'.ino.trans h.ino,
    h'.ctime.trans h.ctime⟩

theorem Frame.seek (h : Frame sd sd') (i : ℕ) : Frame sd (sd'.seek i) :=
  { h with }

theorem sdStat_frame (sd : Savedir) (name len : ℕ) :
    Frame sd (sdStat f sd name len).2 ∧ (sdStat f sd name len).2.last = sd.last ∧
      (sdStat f sd name len).2.sindex = sd.sindex := by
  fun_cases sdStat f sd name len with
  | _ => exact ⟨⟨rfl, rfl, rfl, rfl, rfl⟩, rfl, rfl⟩

/-- A mark other than the unknown one picks the bitmap that the stat picks. -/
theorem Good.bitmapOf_mark {k : Kind} (hr : Good f r) (hu : r.mark ≠ sdUnknown)
    (hk : kindOf f r = some k) : r.mark ≠ sdSkip ∧ bitmapOf req r.mark = req.bitmap k := by
  rcases hr.known with hm | hm | hm | hm | hm
  · exact absurd hm hu
  · rw [kindOf, if_neg (by rw [hm]; decide)] at hk
    cases k with
    | file => rw [hm]; exact ⟨by decide, if_neg (by decide)⟩
    | dir => exact absurd hk (hr.file hm)
  · rw [kindOf, if_neg (by rw [hm]; decide)] at hk
    cases k with
    | file => exact absurd hk (hr.dir hm)
    | dir => rw [hm]; exact ⟨by decide, if_pos rfl⟩
  · rw [kindOf, if_neg (by rw [hm]; decide), hr.skip hm] at hk
    cases hk
  · rw [kindOf, if_pos hm] at hk
    cases hk
    rw [hm]
    exact ⟨by decide, if_neg (by decide)⟩

/-- The stat of the record at the position. -/
theorem sdStat_spec {pre post : List Rec} (h : At sd pre (r :: post)) (hr : Good f r) :
    (sdStat f sd (sd.last + 1) r.name.length).1 = kindOf f r ∧
      ∃ r', Same f r r' ∧ r'.mark ≠ sdUnknown ∧
        At (sdStat f sd (sd.last + 1) r.name.length).2 pre (r' :: post) := by
  have hmark := h.byte_mark
  have hname := h.name
  unfold sdStat
  simp only [hmark, hname]
  by_cases hskip : r.mark = sdSkip
  · have hnone : kindOf f r = none := by
      rw [kindOf, if_neg (by rw [hskip]; decide), hr.skip hskip]
    rw [if_pos hskip, hnone]
    exact ⟨rfl, r, .refl hr, by rw [hskip]; decide, h⟩
  · rw [if_neg hskip]
    by_cases hicon : r.mark = sdIcon
    · have hfile : kindOf f r = some .file := if_pos hicon
      rw [if_pos hicon, hfile]
      exact ⟨rfl, r, .refl hr, by rw [hicon]; decide, h⟩
    · rw [if_neg hicon]
      have hkind : kindOf f r = f.statName r.name := if_neg hicon
      rw [hkind]
      cases hst : f.statName r.name with
      | none =>
        obtain ⟨hb, hl⟩ := h.setMark sdSkip
        exact ⟨rfl, _, .of_stat hr hicon (.inl ⟨rfl, hst⟩), by simp [sdSkip, sdUnknown], ⟨hb, hl⟩⟩
      | some k =>
        cases k with
        | dir =>
          exact ⟨rfl, _, .of_stat hr hicon (.inr (.inl ⟨rfl, hst⟩)), by simp [sdDir, sdUnknown],
            h.setMark sdDir⟩
        | file =>
          exact ⟨rfl, _, .of_stat hr hicon (.inr (.inr ⟨rfl, hst⟩)),
            by simp [sdFile, sdUnknown], h.setMark sdFile⟩

/-! ### The walk -/

/-- A record is listed by the stat of its name and by the bitmap its mark picks. -/
theorem listed_iff (hr : Same f r r') (hu : r'.mark ≠ sdUnknown) : listed f req r ≠ none ↔
      kindOf f r ≠ none ∧ r'.mark ≠ sdSkip ∧ bitmapOf req r'.mark ≠ 0 := by
  rw [listed]
  cases hk : kindOf f r with
  | none => simp
  | some k =>
    obtain ⟨hskip, hbit⟩ := @Good.bitmapOf_mark f req _ _ hr.good hu (hr.kindOf.trans hk)
    rw [hbit]
    by_cases hb : req.bitmap k = 0
    · simp [hb]
    · simp [hskip]

/-- What the walk does with the record at the position: whether it counts it, and what it leaves.
In a listing just read it counts what is listed; in a saved one perhaps more, as it goes by the
marks. -/
theorem walkStat_spec {pre post : List Rec} {fresh : Bool} (h : At sd pre (r :: post))
    (hr : Good f r) : ∃ r', Same f r r' ∧
      At (walkStat f fresh req sd (sd.last + 1) r.name.length).2 pre (r' :: post) ∧
      (listed f req r ≠ none →
        (walkStat f fresh req sd (sd.last + 1) r.name.length).1 ≠ none ∧
          ¬ (r'.mark = sdSkip ∨ bitmapOf req r'.mark = 0)) ∧
      (fresh = true → (walkStat f fresh req sd (sd.last + 1) r.name.length).1 ≠ none →
        ¬ (r'.mark = sdSkip ∨ bitmapOf req r'.mark = 0) → listed f req r ≠ none) := by
  unfold walkStat
  simp only [h.byte_mark, not_or]
  split_ifs with hstat
  · obtain ⟨hkind, r', hsame, hu, hat⟩ := sdStat_spec h hr
    rw [listed_iff hsame hu, hkind]
    exact ⟨r', hsame, hat, id, fun _ h₁ h₂ => ⟨h₁, h₂⟩⟩
  · have hu : r.mark ≠ sdUnknown := fun hu => hstat (.inl hu)
    rw [listed_iff (.refl hr) hu]
    refine ⟨r, .refl hr, h, fun hl => ⟨by simp, hl.2⟩, ?_⟩
    intro hfresh _ hbit
    exact absurd (.inr ⟨hfresh, hbit.2⟩) hstat

/-- What the walk leaves: the records `mid` have been passed, and at least the listed ones of them
have been counted. -/
structure Walked (f : Folder) (req : Request) (fresh : Bool) (sd : Savedir) (pre post : List Rec)
    (b : Bool) (sd' : Savedir) (mid post' : List Rec) : Prop where
  same : List.Forall₂ (Same f) post (mid ++ post')
  pos : At sd' (pre ++ mid) post'
  frame : Frame sd sd'
  counted : (listing f req mid).length + sd.sindex ≤ sd'.sindex
  counted_fresh : fresh = true → (listing f req mid).length + sd.sindex = sd'.sindex
  le : sd'.sindex ≤ max sd.sindex req.sindex
  reached : b = true → req.sindex ≤ sd'.sindex
  ended : b = false → post' = [] ∧ sd'.sindex < req.sindex

section walk
variable {fresh : Bool} {sd : Savedir} {pre post : List Rec}

theorem walk_reached (h : ¬ sd.sindex < req.sindex) : walk f fresh req sd = (true, sd) := by
  rw [walk, if_neg h]

theorem walk_ended (h : sd.sindex < req.sindex) (hb : (sd.byte sd.last).toNat = 0) :
    walk f fresh req sd = (false, sd) := by
  rw [walk, if_pos h]
  simp only [hb, if_true]

theorem walk_cons {n : ℕ} (h : sd.sindex < req.sindex) (hb : (sd.byte sd.last).toNat = n)
    (hn : n ≠ 0) : walk f fresh req sd =
      let s := walkStat f fresh req sd (sd.last + 1) n
      let sd' := s.2.seek (sd.last + 1 + n + 2)
      let kind := sd'.byte (sd.last + 1 + n + 1)
      if s.1 ≠ none ∧ ¬ (kind = sdSkip ∨ bitmapOf req kind = 0) then walk f fresh req sd'.count
      else walk f fresh req sd' := by
  rw [walk]
  simp only [hb]
  split_ifs with h₁ h₂ h₃ h₄ h₅
  · exact absurd h₁ h₂.1
  · rfl
  · exact absurd h₃ h₄.2
  · rfl
  · rfl
  · exact absurd ⟨h₁, h₃⟩ h₅

/-- A walk that has not begun. -/
theorem Walked.stay (h : At sd pre post) (hg : ∀ r ∈ post, Good f r)
    (hreached : b = true → req.sindex ≤ sd.sindex)
    (hended : b = false → post = [] ∧ sd.sindex < req.sindex) :
    Walked f req fresh sd pre post b sd [] post :=
  ⟨Same.refl_list hg, by simpa using h, .refl sd, by simp [listing], by simp [listing],
    le_max_left _ _, hreached, hended⟩

/-- A walk that has passed a record goes on. -/
theorem Walked.cons (h : Walked f req fresh sd₁ (pre ++ [r']) post b sd' mid post')
    (hr : Same f r r') (hframe : Frame sd sd₁)
    (hc : (listing f req [r']).length + sd.sindex ≤ sd₁.sindex)
    (hfresh : fresh = true → (listing f req [r']).length + sd.sindex = sd₁.sindex)
    (hle : sd₁.sindex ≤ req.sindex) :
    Walked f req fresh sd pre (r :: post) b sd' (r' :: mid) post' := by
  have hlen : (listing f req (r' :: mid)).length =
      (listing f req [r']).length + (listing f req mid).length := by
    rw [← singleton_append, listing_append, length_append]
  refine ⟨.cons hr h.same, ?_, hframe.trans h.frame, ?_, ?_, ?_, h.reached, h.ended⟩
  · have hpos := h.pos
    rwa [append_assoc] at hpos
  · have := h.counted
    omega
  · intro hf
    have h₁ := hfresh hf
    have h₂ := h.counted_fresh hf
    omega
  · have := h.le
    omega

theorem walkStat_frame (name len : ℕ) : Frame sd (walkStat f fresh req sd name len).2 ∧
      (walkStat f fresh req sd name len).2.last = sd.last ∧
      (walkStat f fresh req sd name len).2.sindex = sd.sindex := by
  fun_cases walkStat f fresh req sd name len with
  | case1 => exact sdStat_frame sd name len
  | case2 => exact ⟨.refl sd, rfl, rfl⟩

theorem walk_spec (h : At sd pre post) (hg : ∀ r ∈ post, Good f r) :
    ∃ mid post', Walked f req fresh sd pre post (walk f fresh req sd).1 (walk f fresh req sd).2
      mid post' := by
  induction post generalizing sd pre with
  | nil =>
    rcases lt_or_ge sd.sindex req.sindex with hlt | hge
    · rw [walk_ended hlt h.byte_end]
      exact ⟨[], [], .stay h hg (by simp) fun _ => ⟨rfl, hlt⟩⟩
    · rw [walk_reached hge.not_gt]
      exact ⟨[], [], .stay h hg (fun _ => hge) (by simp)⟩
  | cons r post ih =>
    obtain ⟨hr, hg'⟩ := forall_mem_cons.mp hg
    rcases lt_or_ge sd.sindex req.sindex with hlt | hge
    · obtain ⟨r', hsame, hat, hcount, hfresh⟩ := @walkStat_spec f req _ _ _ _ fresh h hr
      obtain ⟨hframe, hlast, hsindex⟩ :=
        @walkStat_frame f req fresh sd (sd.last + 1) r.name.length
      have hmark := hat.byte_mark
      have hnext := hat.next
      rw [hlast, hsame.name] at hmark hnext
      rw [walk_cons hlt (h.byte_length hr.fits) (Nat.pos_iff_ne_zero.mp hr.fits.pos)]
      generalize walkStat f fresh req sd (sd.last + 1) r.name.length = s at *
      simp only
      have hkind : (s.2.seek (sd.last + 1 + r.name.length + 2)).byte
          (sd.last + 1 + r.name.length + 1) = r'.mark := hmark
      rw [hkind]
      have hlisted : (listing f req [r']).length = if listed f req r ≠ none then 1 else 0 := by
        rw [listing_same (.cons hsame .nil)]
        cases hl : listed f req r <;> simp [listing, hl]
      have hframe' := hframe.seek (sd.last + 1 + r.name.length + 2)
      split_ifs with hc
      · obtain ⟨mid, post', hw⟩ := ih hnext.count hg'
        refine ⟨r' :: mid, post', hw.cons hsame ?_ ?_ ?_ ?_⟩
        · exact { hframe with }
        · show _ ≤ s.2.sindex + 1
          rw [hlisted]
          split_ifs <;> omega
        · intro hf
          show _ = s.2.sindex + 1
          rw [hlisted, if_pos (hfresh hf hc.1 hc.2)]
          omega
        · show s.2.sindex + 1 ≤ _
          omega
      · obtain ⟨mid, post', hw⟩ := ih hnext hg'
        have hnone : ¬ listed f req r ≠ none := fun hl => hc (hcount hl)
        rw [if_neg hnone] at hlisted
        refine ⟨r' :: mid, post', hw.cons hsame hframe' ?_ ?_ ?_⟩
        · show _ ≤ s.2.sindex
          omega
        · intro _
          show _ = s.2.sindex
          omega
        · show s.2.sindex ≤ _
          omega
    · rw [walk_reached hge.not_gt]
      exact ⟨[], r :: post, .stay h hg (fun _ => hge) (by simp)⟩

end walk

/-! ### The batch -/

/-- The limits of the reply hold the entry of a record, if the request lists it: its parameters are
there, and the entry fits the reply and its own length. -/
def Fits (f : Folder) (req : Request) (r : Rec) : Prop :=
  ∀ k, kindOf f r = some k → req.bitmap k ≠ 0 →
    ∃ esz, params f req r.name k (r.mark = sdIcon) = .ok esz ∧
      6 + entryLength req.ext esz ≤ req.limit ∧ entryLength req.ext esz ≤ req.ext.maxEntry

theorem Fits.of_same (h : Same f r r') (hr : Fits f req r) : Fits f req r' := by
  intro k hk hbit
  rw [h.name]
  simp only [h.icon]
  exact hr k (h.kindOf.symm.trans hk) hbit

section batch
variable {acc : List Listed} {limit sz : ℕ} {sd : Savedir} {pre post : List Rec}

theorem batch_ended (hb : (sd.byte sd.last).toNat = 0) :
    batch f req limit acc sz sd = (.ok acc, sd) := by
  rw [batch]
  simp only [hb, if_true]

theorem batch_full (h : acc.length = req.reqcnt) : batch f req limit acc sz sd = (.ok acc, sd) := by
  rw [batch]
  simp only [h, if_true, ite_self]

theorem batch_cons (h : At sd pre (r :: post)) (hr : r.Fits) (hfull : acc.length ≠ req.reqcnt) :
    batch f req limit acc sz sd =
      let s := sdStat f sd (sd.last + 1) r.name.length
      let sd' := s.2.seek (sd.last + 1 + r.name.length + 2)
      match s.1 with
      | none => batch f req limit acc sz sd'
      | some kind =>
        if req.bitmap kind = 0 then batch f req limit acc sz sd'
        else
          match params f req r.name kind (r.mark = sdIcon) with
          | .error e => (.error e, sd')
          | .ok esz =>
            let entry := entryLength req.ext esz
            if limit < sz + entry then
              if acc = [] then (.error .param, sd') else (.ok acc, sd'.seek sd.last)
            else if req.ext.maxEntry < entry then (.error .param, sd')
            else batch f req limit (acc ++ [(r.name, kind)]) (sz + entry) sd' := by
  have hn : r.name.length ≠ 0 := Nat.pos_iff_ne_zero.mp hr.pos
  rw [batch]
  cases hs : (sdStat f sd (sd.last + 1) r.name.length).1 with
  | none => simp only [h.byte_length hr, hn, hfull, if_false, hs]
  | some kind =>
    cases hp : params f req r.name kind (r.mark = sdIcon) with
    | error | ok =>
      simp only [h.byte_length hr, hn, hfull, if_false, h.name, h.byte_mark, hs, hp]

/-- What the loop over the records leaves: the records `mid` have been passed, and what is listed of
them is in the reply. -/
structure Batched (f : Folder) (req : Request) (acc : List Listed) (sd : Savedir)
    (pre post : List Rec) (res : Except AfpErr (List Listed)) (sd' : Savedir)
    (mid post' : List Rec) : Prop where
  same : List.Forall₂ (Same f) post (mid ++ post')
  pos : At sd' (pre ++ mid) post'
  frame : Frame sd sd'
  sindex : sd'.sindex = sd.sindex
  reply : ∀ es, res = .ok es → es = acc ++ listing f req mid
  /-- an empty reply is one of a request for nothing, or the records have ended -/
  empty : res = .ok [] → req.reqcnt = 0 ∨ post' = []

theorem Batched.stay (h : At sd pre post) (hg : ∀ r ∈ post, Good f r)
    (hempty : acc = [] → req.reqcnt = 0 ∨ post = []) :
    Batched f req acc sd pre post (.ok acc) sd [] post :=
  ⟨Same.refl_list hg, by simpa using h, .refl sd, rfl, by simp [listing], by simpa using hempty⟩

/-- The loop passes a record, whose entry is in the reply or which is not listed. -/
theorem Batched.cons {res : Except AfpErr (List Listed)} {acc' : List Listed}
    (h : Batched f req acc' sd₁ (pre ++ [r']) post res sd' mid post') (hr : Same f r r')
    (hframe : Frame sd sd₁) (hs : sd₁.sindex = sd.sindex)
    (hacc : acc' = acc ++ listing f req [r']) :
    Batched f req acc sd pre (r :: post) res sd' (r' :: mid) post' := by
  refine ⟨.cons hr h.same, ?_, hframe.trans h.frame, h.sindex.trans hs, ?_, h.empty⟩
  · have hpos := h.pos
    rwa [append_assoc] at hpos
  · intro es hes
    rw [h.reply es hes, hacc, append_assoc, ← listing_append, singleton_append]

/-- The loop ends after a record, with an error. -/
theorem Batched.error {e : AfpErr} (h : At sd₁ (pre ++ [r']) post) (hg : ∀ r ∈ post, Good f r)
    (hr : Same f r r') (hframe : Frame sd sd₁) (hs : sd₁.sindex = sd.sindex) :
    Batched f req acc sd pre (r :: post) (.error e) sd₁ [r'] post :=
  ⟨.cons hr (Same.refl_list hg), h, hframe, hs, by simp, by simp⟩

theorem batch_spec (h : At sd pre post) (hg : ∀ r ∈ post, Good f r) :
    ∃ mid post', Batched f req acc sd pre post (batch f req limit acc sz sd).1
      (batch f req limit acc sz sd).2 mid post' := by
  induction post generalizing acc sz sd pre with
  | nil =>
    rw [batch_ended h.byte_end]
    exact ⟨[], [], .stay h hg fun _ => .inr rfl⟩
  | cons r post ih =>
    obtain ⟨hr, hg'⟩ := forall_mem_cons.mp hg
    by_cases hfull : acc.length = req.reqcnt
    · rw [batch_full hfull]
      exact ⟨[], r :: post, .stay h hg fun hacc => .inl (by rw [← hfull, hacc]; rfl)⟩
    · obtain ⟨hkind, r', hsame, hu, hat⟩ := sdStat_spec h hr
      obtain ⟨hframe, hlast, hsindex⟩ := @sdStat_frame f sd (sd.last + 1) r.name.length
      have hnext := hat.next
      rw [hlast, hsame.name] at hnext
      rw [batch_cons h hr.fits hfull]
      simp only [hkind]
      have hframe' := hframe.seek (sd.last + 1 + r.name.length + 2)
      have hlisted : listing f req [r'] = (listed f req r).toList := by
        rw [listing_same (.cons hsame .nil)]
        cases hl : listed f req r <;> simp [listing, hl]
      rw [listed] at hlisted
      cases hk : kindOf f r with
      | none =>
        rw [hk] at hlisted
        obtain ⟨mid, post', hw⟩ := @ih acc sz _ _ hnext hg'
        exact ⟨r' :: mid, post', hw.cons hsame hframe' hsindex (by rw [hlisted]; simp)⟩
      | some k =>
        rw [hk] at hlisted
        simp only at hlisted ⊢
        by_cases hbit : req.bitmap k = 0
        · rw [if_pos hbit] at hlisted ⊢
          obtain ⟨mid, post', hw⟩ := @ih acc sz _ _ hnext hg'
          exact ⟨r' :: mid, post', hw.cons hsame hframe' hsindex (by rw [hlisted]; simp)⟩
        · rw [if_neg hbit] at hlisted ⊢
          cases hp : params f req r.name k (r.mark = sdIcon) with
          | error => exact ⟨[r'], post, .error hnext hg' hsame hframe' hsindex⟩
          | ok esz =>
            simp only
            split_ifs with hlim hacc hent
            · exact ⟨[r'], post, .error hnext hg' hsame hframe' hsindex⟩
            · refine ⟨[], r' :: post, .cons hsame (Same.refl_list hg'), ?_,
                hframe'.seek sd.last, hsindex, by simp [listing],
                fun hnil => absurd (Except.ok.inj hnil) hacc⟩
              rw [append_nil]
              exact ⟨hat.bytes, h.last⟩
            · exact ⟨[r'], post, .error hnext hg' hsame hframe' hsindex⟩
            · obtain ⟨mid, post', hw⟩ := @ih (acc ++ [(r.name, k)])
                (sz + entryLength req.ext esz) _ _ hnext hg'
              exact ⟨r' :: mid, post', hw.cons hsame hframe' hsindex (by rw [hlisted]; rfl)⟩

/-- A batch whose entries all fit does not fail. -/
theorem batch_ok (h : At sd pre post) (hg : ∀ r ∈ post, Good f r) (hfit : ∀ r ∈ post, Fits f req r)
    (hsz : acc = [] → sz = 6) : ∃ es, (batch f req req.limit acc sz sd).1 = .ok es := by
  induction post generalizing acc sz sd pre with
  | nil => exact ⟨acc, by rw [batch_ended h.byte_end]⟩
  | cons r post ih =>
    obtain ⟨hr, hg'⟩ := forall_mem_cons.mp hg
    obtain ⟨hroom, hfit'⟩ := forall_mem_cons.mp hfit
    by_cases hfull : acc.length = req.reqcnt
    · exact ⟨acc, by rw [batch_full hfull]⟩
    · obtain ⟨hkind, r', hsame, _, hat⟩ := sdStat_spec h hr
      have hnext := hat.next
      rw [(sdStat_frame sd (sd.last + 1) r.name.length).2.1, hsame.name] at hnext
      rw [batch_cons h hr.fits hfull]
      simp only [hkind]
      cases hk : kindOf f r with
      | none => exact ih hnext hg' hfit' hsz
      | some k =>
        simp only
        by_cases hbit : req.bitmap k = 0
        · rw [if_pos hbit]
          exact ih hnext hg' hfit' hsz
        · obtain ⟨esz, hp, hlim, hent⟩ := hroom k hk hbit
          rw [hp]
          simp only
          split_ifs with hover hacc hlong
          · rw [hsz hacc] at hover
            exact absurd hover (by omega)
          · exact ⟨acc, rfl⟩
          · exact absurd hlong (by omega)
          · exact ih hnext hg' hfit' (by simp)

end batch

/-! ### The read -/

/-- The records of the names a folder has, as a read leaves them. -/
def recsOf (f : Folder) (dirents : List Dirent) : List Rec :=
  dirents.map (fun de => ⟨de.name, sdKind de⟩) ++
    match f.icon with
    | none => []
    | some de => [⟨de.name, sdIcon⟩]

/-- The listing has been written up to its position. -/
structure Written (sd : Savedir) (l : List Rec) : Prop where
  bytes : sd.bytes.take sd.last = listBytes l
  last : sd.last = (listBytes l).length

theorem Written.append (h : Written sd l) (name : List UInt8) (kind : UInt8) :
    Written (sdAppend sd name kind) (l ++ [⟨name, kind⟩]) := by
  have hbytes : (sdAppend sd name kind).bytes =
      listBytes l ++ (Rec.mk name kind).bytes := by
    rw [← h.bytes]
    rfl
  have hlast : (sdAppend sd name kind).last =
      (listBytes l ++ (Rec.mk name kind).bytes).length := by
    rw [length_append, Rec.length_bytes, ← h.last]
    rfl
  refine ⟨?_, ?_⟩
  · rw [hbytes, hlast]
    simp
  · rw [hlast]
    simp

theorem Written.foldl (h : Written sd l) (dirents : List Dirent) :
    Written (dirents.foldl (fun sd de => sdAppend sd de.name (sdKind de)) sd)
      (l ++ dirents.map fun de => ⟨de.name, sdKind de⟩) := by
  induction dirents generalizing sd l with
  | nil => simpa using h
  | cons de dirents ih =>
    have hrest := ih (h.append de.name (sdKind de))
    rw [append_assoc] at hrest
    exact hrest

/-- A read leaves the records of the folder, with the position before them. -/
theorem sdRead_at (f : Folder) (st : Stat) (clock : Option Timespec) (dirents : List Dirent)
    (sd : Savedir) : At (sdRead f st clock dirents sd) [] (recsOf f dirents) := by
  have hstart : ∀ sd : Savedir, Written (sd.seek 0) [] := fun sd => ⟨by simp, rfl⟩
  have hend : ∀ (sd : Savedir) (l : List Rec), Written sd l →
      sd.bytes.take sd.last ++ [0] = listBytes [] ++ (listBytes l ++ [0]) :=
    fun sd l h => by rw [h.bytes]; rfl
  refine ⟨?_, rfl⟩
  unfold sdRead recsOf
  cases f.icon with
  | none =>
    exact hend _ _ (by simpa using (hstart _).foldl dirents)
  | some de => exact hend _ _ (by simpa using ((hstart _).foldl dirents).append de.name sdIcon)

end Netatalk.Enumerate
