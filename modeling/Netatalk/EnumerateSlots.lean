import Netatalk.EnumerateListing

/-! # The slot of a directory

A request leaves in the slots a listing of its own directory, and of the other directories what they
held before or nothing.  So an invariant of one directory's listing (`Mine`) has to be shown for the
requests for that directory only. -/

namespace Netatalk.Enumerate

open List Slots

variable {f : Folder} {dirents : List Dirent} {req : Request}

/-- The directory a request is for. -/
def Folder.key (f : Folder) : ℕ × ℕ := (f.vid, f.did)

/-! ### Keys -/

variable {P : Savedir → Prop} {g : Folder} {s : State} {sd sd' : Savedir}

theorem Frame.key (h : Frame sd sd') : sd'.key = sd.key := by
  unfold Savedir.key
  rw [h.vid, h.did]

theorem Folder.key_of (g : Folder) (hv : sd.vid = g.vid) (hd : sd.did = g.did) :
    sd.key = some g.key := by
  have := g.did_pos
  rw [Savedir.key, hv, hd, if_neg (by omega)]
  rfl

theorem Frame.count (h : Frame sd sd') : Frame sd sd'.count :=
  { h with }

theorem walk_frame (fresh : Bool) (sd : Savedir) : Frame sd (walk f fresh req sd).2 := by
  fun_induction walk f fresh req sd with
  | case1 | case5 => exact .refl _
  | case2 sd _ _ _ _ _ _ _ ih | case3 sd _ _ _ _ _ _ _ _ _ ih =>
    exact ((walkStat_frame _ _).1.seek _).trans ih
  | case4 sd _ _ _ _ _ _ _ _ _ ih => exact ((walkStat_frame _ _).1.seek _).count.trans ih

theorem batch_frame (limit : ℕ) (acc : List Listed) (sz : ℕ) (sd : Savedir) :
    Frame sd (batch f req limit acc sz sd).2 := by
  fun_induction batch f req limit acc sz sd with
  | case1 | case2 => exact .refl _
  | case5 | case6 | case8 => exact (sdStat_frame _ _ _).1.seek _
  | case7 => exact ((sdStat_frame _ _ _).1.seek _).seek _
  | _ =>
    rename_i ih
    exact ((sdStat_frame _ _ _).1.seek _).trans ih

theorem list_frame (fresh : Bool) (sd : Savedir) :
    Frame (position req sd) (list f req fresh sd).2 := by
  have hwalk : Frame _ (walk f fresh req _).2 := walk_frame fresh (position req sd)
  unfold list
  cases hw : walk f fresh req (position req sd) with
  | mk b sd₁ =>
    rw [hw] at hwalk
    cases b with
    | false => exact hwalk
    | true =>
      have hbatch : Frame _ (batch f req _ _ _ _).2 := batch_frame req.limit [] 6 sd₁
      simp only
      cases hb : batch f req req.limit [] 6 sd₁ with
      | mk res =>
        rw [hb] at hbatch
        have h := hwalk.trans hbatch
        cases res with
        | error => exact h.seek _
        | ok es =>
          cases es with
          | nil => exact h
          | cons => exact { h with }

theorem list_kept (fresh : Bool) (sd : Savedir) :
    (list f req fresh sd).2.key = sd.key ∧ (list f req fresh sd).2.ctime = sd.ctime := by
  have h : Frame (position req sd) (list f req fresh sd).2 := list_frame fresh sd
  have hpos : (position req sd).key = sd.key ∧ (position req sd).ctime = sd.ctime := by
    unfold position
    split_ifs <;> exact ⟨rfl, rfl⟩
  exact ⟨h.key.trans hpos.1, h.ctime.trans hpos.2⟩

theorem serve_key (h : sd.key = none ∨ sd.key = some f.key) :
    (serve f req sd).2.key = none ∨ (serve f req sd).2.key = some f.key := by
  have hdrop : (sdDrop sd).key = none := rfl
  fun_cases serve f req sd with
  | case5 st _ _ fresh sd' hfetch =>
    rw [(list_kept fresh sd').1]
    revert hfetch
    fun_cases sdFetch f st req sd with
    | case1 =>
      rintro ⟨⟩
      exact h
    | case2 => rintro ⟨⟩
    | case3 =>
      rintro ⟨⟩
      exact .inr (f.key_of rfl rfl)
  | _ => exact .inl hdrop

/-! ### Slots -/

/-- What the slots hold for a directory, if anything, has a property; the volume root has no
slot. -/
def Mine (f : Folder) (P : Savedir → Prop) (s : State) : Prop :=
  f.did ≠ dirdidRoot → s.slots.held slotKind f.key = [] ∨
    ∃ sd, s.slots.held slotKind f.key = [sd] ∧ P sd

theorem Mine.mono {Q : Savedir → Prop} (h : Mine f P s) (hPQ : ∀ sd, P sd → Q sd) : Mine f Q s := by
  intro hroot
  refine (h hroot).imp_right ?_
  rintro ⟨sd, hsd, hP⟩
  exact ⟨sd, hsd, hPQ sd hP⟩

theorem Mine.congr (h : Mine f P s) (hg : g.key = f.key) : Mine g P s := by
  intro hroot
  rw [hg]
  exact h fun hf => hroot ((Prod.mk.inj hg).2.trans hf)

theorem enumerate_other (h : Mine f P s) (hg : g.key ≠ f.key) : Mine f P (enumerate g req s).2 := by
  unfold enumerate
  fun_cases enumerateIn g req { s with own := { s.own with did := 0 } } with
  | case6 _ _ _ _ _ slots r =>
    intro hroot
    have hsub : (held slotKind f.key { slots with inUse := r.2 }).Sublist
        (held slotKind f.key s.slots) := by
      have hkey : slotKind.key r.2 ≠ some f.key := by
        intro hown
        rcases @serve_key g req _ (@key_select _ _ _ slotKind g.key s.slots) with hr | hr
        · exact absurd (hr.symm.trans hown) (by simp)
        · exact hg (Option.some.inj (hr.symm.trans hown))
      rw [held, withKey_cons_of_ne hkey]
      exact ((sublist_cons_self _ _).filter _).trans (held_select_other hg.symm)
    rcases h hroot with hnone | ⟨sd, hsd, hP⟩
    · rw [hnone] at hsub
      exact .inl (sublist_nil.mp hsub)
    · rw [hsd] at hsub
      rcases sublist_singleton.mp hsub with hnil | hone
      · exact .inl hnil
      · exact .inr ⟨sd, hone, hP⟩
  | _ => exact h

/-- The slot of the directory, or an empty one, is in use, and no other slot is of the directory. -/
theorem sdSelect_mine {slots : Slots Savedir}
    (h : slots.held slotKind f.key = [] ∨ ∃ sd, slots.held slotKind f.key = [sd] ∧ P sd) :
    ((sdSelect f.vid f.did slots).inUse.key = none ∨
      (sdSelect f.vid f.did slots).inUse.key = some f.key ∧
        P (sdSelect f.vid f.did slots).inUse) ∧
      withKey slotKind f.key (sdSelect f.vid f.did slots).parked = [] := by
  rcases h with hnone | ⟨sd, hsd, hP⟩
  · obtain ⟨hkey, hparked⟩ := select_of_not_held hnone
    exact ⟨.inl hkey, hparked⟩
  · obtain ⟨huse, hparked⟩ := select_of_held hsd
    have hmem : sd ∈ slots.held slotKind f.key := hsd ▸ mem_singleton_self sd
    have hkey : sd.key = some f.key := of_decide_eq_true (mem_filter.mp hmem).2
    refine ⟨.inr ?_, hparked⟩
    exact huse.symm ▸ ⟨hkey, hP⟩

/-- The listing a request is served from. -/
def State.selected (f : Folder) (s : State) : Savedir :=
  if f.did = dirdidRoot then { s.own with did := 0 } else (sdSelect f.vid f.did s.slots).inUse

theorem selected_mine (h : Mine f P s) :
    (s.selected f).key = none ∨ (s.selected f).key = some f.key ∧ P (s.selected f) := by
  unfold State.selected
  split_ifs with hroot
  · exact .inl rfl
  · exact (sdSelect_mine (h hroot)).1

/-- The request comes to the directory's stat. -/
structure Accepts (f : Folder) (req : Request) : Prop where
  dirlookup : f.dirlookup = none
  bitmap : ¬ (req.fbitmap = 0 ∧ req.dbitmap = 0)
  sindex : req.sindex ≠ 0
  cname : f.cname = none

/-- A request is served from the listing it selects, and the slots then hold what it leaves. -/
theorem enumerate_accepts (h : Mine f P s) (ha : Accepts f req) :
    (enumerate f req s).1 = (serve f req (s.selected f)).1 ∧
      ∀ Q : Savedir → Prop,
        ((serve f req (s.selected f)).2.key = some f.key → Q (serve f req (s.selected f)).2) →
        Mine f Q (enumerate f req s).2 := by
  unfold enumerate enumerateIn State.selected
  rw [ha.dirlookup, ha.cname, if_neg ha.bitmap, if_neg ha.sindex]
  by_cases hroot : f.did = dirdidRoot
  · rw [if_pos hroot, if_pos hroot]
    exact ⟨rfl, fun Q _ hne => absurd hroot hne⟩
  · rw [if_neg hroot, if_neg hroot]
    obtain ⟨hsel, hparked⟩ := sdSelect_mine (h hroot)
    refine ⟨rfl, ?_⟩
    intro Q hQ _
    rcases @serve_key f req _ (hsel.imp_right And.left) with hkey | hkey
    · left
      rw [held, withKey_cons_of_ne]
      · exact hparked
      · simp only [slotKind, hkey]
        simp
    · right
      refine ⟨_, ?_, hQ hkey⟩
      rw [held, withKey_cons_of_eq hkey]
      simp only [hparked]

theorem enumerate_not_accepts (ha : ¬ Accepts f req) : (enumerate f req s).2.slots = s.slots := by
  unfold enumerate
  fun_cases enumerateIn f req { s with own := { s.own with did := 0 } } with
  | case5 hlookup hbit hs hcname _ | case6 hlookup hbit hs hcname _ =>
    exact absurd ⟨hlookup, hbit, hs, hcname⟩ ha
  | _ => rfl

end Netatalk.Enumerate
