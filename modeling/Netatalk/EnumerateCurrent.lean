import Netatalk.EnumerateSlots
import Netatalk.Stamps

/-! # Saved listings are current

While afpd works on a request the folder may change, between any two of the request's own steps: the
stat, the reading of the clock, and the begin and the end of the read of the names.  A request is
again a call of `enumerate`, on a `Folder` whose stat, names and clock are those of different
moments of one history (`Takes`); a read during which the folder changes may give any names.

Each change stamps the folder's ctime from a clock that trails afpd's by less than a tick.  A
listing is saved under the ctime the stat told, or under none if that was recent when the read
began.  So a change after the begin of the read gives the folder another ctime, for good (`Sound`).
-/

namespace Netatalk.Enumerate

open List

/-! ### The history of a folder -/

/-- The time of a number of nanoseconds. -/
def Timespec.ofNs (n : ℤ) : Timespec := ⟨n / 1000000000, n % 1000000000⟩

theorem Timespec.ofNs_inj {m n : ℤ} (h : ofNs m = ofNs n) : m = n := by
  obtain ⟨hsec, hnsec⟩ := Timespec.mk.inj h
  omega

/-- The names of a folder and its ctime, beside afpd's clock; where ctimes keep no nanoseconds the
tick is a second, else that of a 100 Hz clock. -/
structure History where
  nanoseconds : Bool
  folder : Stamped (List Dirent)
  tick : folder.tick = if nanoseconds then 10000000 else 1000000000
  seconds : nanoseconds = false → ∀ n, folder.stamp n % 1000000000 = 0

namespace History

variable (H : History)

def names (n : ℕ) : List Dirent := H.folder.value n

def ctime (n : ℕ) : Timespec := .ofNs (H.folder.stamp n)

def clock (n : ℕ) : Timespec := .ofNs (H.folder.clock n)

variable {H}

/-- A ctime that is not recent when the clock is read is older than a tick. -/
theorem stamp_of_not_recent {i j : ℕ} (hij : i ≤ j)
    (h : enumerateCtimeRecent (H.ctime i) (H.clock j) = false) :
    H.folder.stamp i + H.folder.tick ≤ H.folder.clock j := by
  have hle : H.folder.stamp i ≤ H.folder.clock j :=
    (Stamped.stamp_le_clock i).trans (Stamped.clock_le hij)
  have hseconds := H.seconds
  rw [H.tick]
  unfold enumerateCtimeRecent ctime clock Timespec.ofNs at h
  simp only at h
  cases hn : H.nanoseconds with
  | false =>
    have hwhole := hseconds hn i
    split_ifs at h
    · omega
    all_goals
      simp only [decide_eq_false_iff_not] at h
      omega
  | true =>
    split_ifs at h
    · omega
    all_goals
      simp only [decide_eq_false_iff_not, if_true] at h ⊢
      omega

end History

/-! ### The names in a listing -/

/-- The records of a listing have these names, one after the other. -/
def Lists (names : List Dirent) (sd : Savedir) : Prop :=
  ∃ recs, sd.bytes = Rec.listBytes recs ++ [0] ∧ recs.map Rec.name = names.map Dirent.name

/-- The names, and a position at one of the records. -/
def ListsAt (names : List Dirent) (sd : Savedir) : Prop :=
  ∃ pre post, At sd pre post ∧ (pre ++ post).map Rec.name = names.map Dirent.name

variable {f : Folder} {names : List Dirent} {req : Request} {sd : Savedir} {pre post : List Rec}

theorem ListsAt.lists (h : ListsAt names sd) : Lists names sd := by
  obtain ⟨pre, post, hat, hnames⟩ := h
  exact ⟨pre ++ post, by rw [hat.bytes]; simp, hnames⟩

theorem fits_of_names {l : List Rec} (h : l.map Rec.name = names.map Dirent.name) :
    ∀ r ∈ l, r.Fits := by
  intro r hr
  have hmem : r.name ∈ names.map Dirent.name := h ▸ List.mem_map_of_mem hr
  obtain ⟨de, _, hde⟩ := List.mem_map.mp hmem
  exact ⟨hde ▸ de.pos, hde ▸ de.le⟩

/-- The position has moved on by some records behind it, which keep their names. -/
def Moved (pre post : List Rec) (sd : Savedir) : Prop :=
  ∃ mid post', At sd (pre ++ mid) post' ∧ (mid ++ post').map Rec.name = post.map Rec.name

theorem Moved.stay (h : At sd pre post) : Moved pre post sd :=
  ⟨[], post, by rw [append_nil]; exact h, rfl⟩

theorem Moved.cons {r r' : Rec} (h : Moved (pre ++ [r']) post sd) (hr : r'.name = r.name) :
    Moved pre (r :: post) sd := by
  obtain ⟨mid, post', hat, hnames⟩ := h
  rw [append_assoc] at hat
  exact ⟨r' :: mid, post', hat, by simp only [cons_append, map_cons, hr, hnames]⟩

theorem Moved.back {sd' : Savedir} (h : Moved pre post sd') (hat : At sd pre post) :
    Moved pre post (sd'.seek sd.last) := by
  obtain ⟨mid, post', hat', hnames⟩ := h
  exact ⟨[], mid ++ post', by rw [append_nil]; exact hat'.back hat.last, hnames⟩

theorem Moved.listsAt (h : Moved pre post sd)
    (hnames : (pre ++ post).map Rec.name = names.map Dirent.name) : ListsAt names sd := by
  obtain ⟨mid, post', hat, hmoved⟩ := h
  refine ⟨pre ++ mid, post', hat, ?_⟩
  rw [append_assoc, map_append, hmoved, ← map_append, hnames]

/-- A stat changes the mark of the record at the position. -/
theorem sdStat_at {r : Rec} (h : At sd pre (r :: post)) : ∃ r', r'.name = r.name ∧
      At ((sdStat f sd (sd.last + 1) r.name.length).2.seek (sd.last + 1 + r.name.length + 2))
        (pre ++ [r']) post := by
  fun_cases sdStat f sd (sd.last + 1) r.name.length with
  | case1 | case2 => exact ⟨r, rfl, h.next⟩
  | case3 =>
    have hnext := (h.setMark sdSkip).next
    exact ⟨{ r with mark := sdSkip }, rfl, hnext.bytes, hnext.last⟩
  | case4 => exact ⟨{ r with mark := sdDir }, rfl, (h.setMark sdDir).next⟩
  | case5 => exact ⟨{ r with mark := sdFile }, rfl, (h.setMark sdFile).next⟩

theorem walkStat_at {r : Rec} {fresh : Bool} (h : At sd pre (r :: post)) : ∃ r', r'.name = r.name ∧
      At ((walkStat f fresh req sd (sd.last + 1) r.name.length).2.seek
        (sd.last + 1 + r.name.length + 2)) (pre ++ [r']) post := by
  fun_cases walkStat f fresh req sd (sd.last + 1) r.name.length with
  | case1 => exact sdStat_at h
  | case2 => exact ⟨r, rfl, h.next⟩

variable {fresh : Bool} {s : State}

theorem walk_moved (h : At sd pre post) (hfits : ∀ r ∈ post, r.Fits) :
    Moved pre post (walk f fresh req sd).2 := by
  induction post generalizing sd pre with
  | nil =>
    rcases lt_or_ge sd.sindex req.sindex with hlt | hge
    · rw [walk_ended hlt h.byte_end]
      exact .stay h
    · rw [walk_reached hge.not_gt]
      exact .stay h
  | cons r post ih =>
    obtain ⟨hr, hfits⟩ := forall_mem_cons.mp hfits
    rcases lt_or_ge sd.sindex req.sindex with hlt | hge
    · obtain ⟨r', hname, hat⟩ := @walkStat_at f req sd pre post r fresh h
      rw [walk_cons hlt (h.byte_length hr) (Nat.pos_iff_ne_zero.mp hr.pos)]
      simp only
      split_ifs
      · exact (ih hat.count hfits).cons hname
      · exact (ih hat hfits).cons hname
    · rw [walk_reached hge.not_gt]
      exact .stay h

theorem batch_moved {acc : List Listed} {limit sz : ℕ} (h : At sd pre post)
    (hfits : ∀ r ∈ post, r.Fits) : Moved pre post (batch f req limit acc sz sd).2 := by
  induction post generalizing acc sz sd pre with
  | nil =>
    rw [batch_ended h.byte_end]
    exact .stay h
  | cons r post ih =>
    obtain ⟨hr, hfits⟩ := forall_mem_cons.mp hfits
    by_cases hfull : acc.length = req.reqcnt
    · rw [batch_full hfull]
      exact .stay h
    · obtain ⟨r', hname, hat⟩ := @sdStat_at f sd pre post r h
      rw [batch_cons h hr hfull]
      simp only
      generalize sdStat f sd (sd.last + 1) r.name.length = s at hat ⊢
      have hstop : Moved pre (r :: post) (s.2.seek (sd.last + 1 + r.name.length + 2)) :=
        (Moved.stay hat).cons hname
      cases s.1 with
      | none => exact (ih hat hfits).cons hname
      | some kind =>
        simp only
        by_cases hbit : req.bitmap kind = 0
        · rw [if_pos hbit]
          exact (ih hat hfits).cons hname
        · rw [if_neg hbit]
          cases params f req r.name kind (r.mark = sdIcon) with
          | error => exact hstop
          | ok =>
            simp only
            split_ifs
            · exact hstop
            · exact hstop.back h
            · exact hstop
            · exact (ih hat hfits).cons hname

theorem list_listsAt (h : ListsAt names sd) : ListsAt names (list f req fresh sd).2 := by
  have hpos : ListsAt names (position req sd) := by
    unfold position
    split_ifs
    · obtain ⟨pre, post, hat, hnames⟩ := h
      have hstart : At (sd.seek 0) [] (pre ++ post) := At.back hat rfl
      exact ⟨[], pre ++ post, { hstart with }, hnames⟩
    · exact h
  have hwalk : ListsAt names (walk f fresh req (position req sd)).2 := by
    obtain ⟨pre, post, hat, hnames⟩ := hpos
    have hfits := fits_of_names hnames
    exact (walk_moved hat fun r hr => hfits r (mem_append_right pre hr)).listsAt hnames
  unfold list
  cases hw : walk f fresh req (position req sd) with
  | mk b sd₁ =>
    rw [hw] at hwalk
    cases b with
    | false => exact hwalk
    | true =>
      obtain ⟨pre, post, hat, hnames⟩ := hwalk
      have hfits := fits_of_names hnames
      have hbatch : Moved pre post (batch f req req.limit [] 6 sd₁).2 :=
        batch_moved hat fun r hr => hfits r (mem_append_right pre hr)
      simp only
      cases hb : batch f req req.limit [] 6 sd₁ with
      | mk res =>
        rw [hb] at hbatch
        cases res with
        | error => exact (hbatch.back hat).listsAt hnames
        | ok es =>
          cases es with
          | nil => exact hbatch.listsAt hnames
          | cons =>
            obtain ⟨pre', post', hat', hnames'⟩ := hbatch.listsAt hnames
            exact ⟨pre', post', { hat' with }, hnames'⟩

/-! ### Requests in the history -/

/-- The moments of a request for the folder: the stat at `i`, the clock at `j`, the read of the
names from `k` to `l`.  Only the volume root has the virtual icon. -/
structure Takes (H : History) (f : Folder) (req : Request) (i j k l : ℕ) : Prop where
  stat_clock : i ≤ j
  clock_read : j ≤ k
  read : k ≤ l
  ctime : ∀ st, f.stat = .ok st → st.ctime = H.ctime i
  clock : ∀ now, req.clock = some now → now = H.clock j
  names : ∀ dirents, f.dirents = .ok dirents → H.folder.Quiet k l → dirents = H.names k
  icon : f.did ≠ dirdidRoot → f.icon = none

/-- From moment `t` on the listing is current while the folder has the listing's stamp. -/
def Sound (H : History) (t : ℕ) (sd : Savedir) : Prop :=
  ∃ names, ListsAt names sd ∧
    ((sd.ctime.sec ≠ 0 ∨ sd.ctime.nsec ≠ 0) → ∀ n, t ≤ n → H.ctime n = sd.ctime → names = H.names n)

variable {H : History} {i j k l t : ℕ}

theorem Sound.mono {t' : ℕ} (h : Sound H t sd) (ht : t ≤ t') : Sound H t' sd := by
  obtain ⟨names, hlists, hcurrent⟩ := h
  exact ⟨names, hlists, fun hz n hn => hcurrent hz n (ht.trans hn)⟩

theorem list_sound (h : Sound H t sd) : Sound H t (list f req fresh sd).2 := by
  obtain ⟨names, hlists, hcurrent⟩ := h
  refine ⟨names, list_listsAt hlists, ?_⟩
  rw [(list_kept fresh sd).2]
  exact hcurrent

/-- A listing that has just been read. -/
theorem sdRead_sound {st : Stat} {dirents : List Dirent} (h : Takes H f req i j k l)
    (hroot : f.did ≠ dirdidRoot) (hst : f.stat = .ok st) (hread : f.dirents = .ok dirents) :
    Sound H l (sdRead f st req.clock dirents sd) := by
  refine ⟨dirents, ⟨[], recsOf f dirents, sdRead_at f st req.clock dirents sd, ?_⟩, ?_⟩
  · rw [recsOf, h.icon hroot]
    simp
  intro hz n hn hstamp
  have hctime : (sdRead f st req.clock dirents sd).ctime =
      if enumerateCtimeRecent st.ctime (req.clock.getD st.ctime) then ⟨0, 0⟩ else st.ctime := rfl
  rw [hctime] at hz hstamp
  split_ifs at hz hstamp with hrecent
  · exact absurd hz (by simp)
  · cases hclock : req.clock with
    | none =>
      rw [hclock] at hrecent
      exact absurd (by simp [enumerateCtimeRecent]) hrecent
    | some now =>
      rw [hclock, h.clock now hclock, h.ctime st hst] at hrecent
      rw [h.ctime st hst] at hstamp
      have hsame : H.folder.stamp n = H.folder.stamp i := Timespec.ofNs_inj hstamp
      have hold := History.stamp_of_not_recent h.stat_clock (Bool.eq_false_iff.mpr hrecent)
      exact Stamped.read_eq_value h.clock_read h.read hn (h.names dirents hread)
        (by rw [hsame]; exact hold)

theorem serve_sound (h : Takes H f req i j k l) (hroot : f.did ≠ dirdidRoot)
    (hsd : sd.key = none ∨ sd.key = some f.key ∧ Sound H l sd)
    (hkey : (serve f req sd).2.key = some f.key) : Sound H l (serve f req sd).2 := by
  revert hkey
  fun_cases serve f req sd with
  | case5 st hst _ fresh sd' hfetch =>
    intro hkey
    apply list_sound
    rw [(list_kept fresh sd').1] at hkey
    revert hfetch
    fun_cases sdFetch f st req sd with
    | case1 =>
      rintro ⟨⟩
      rcases hsd with hnone | ⟨_, hsound⟩
      · rw [hnone] at hkey
        cases hkey
      · exact hsound
    | case2 => rintro ⟨⟩
    | case3 _ dirents hread =>
      rintro ⟨⟩
      exact sdRead_sound h hroot hst hread
  | _ => exact fun hdrop => absurd hdrop (by simp [sdDrop, Savedir.key])

/-- Runs up to moment `t`: requests for the folder, one after the other, and requests for other
directories. -/
inductive Run (H : History) (key : ℕ × ℕ) : ℕ → State → Prop
  | init (t : ℕ) : Run H key t State.init
  | later {t t' : ℕ} {s : State} : t ≤ t' → Run H key t s → Run H key t' s
  | own {t i j k l : ℕ} {s : State} (f : Folder) (req : Request) : f.key = key → t ≤ i →
      Takes H f req i j k l → Run H key t s → Run H key l (enumerate f req s).2
  | other {t : ℕ} {s : State} (g : Folder) (req : Request) :
      g.key ≠ key → Run H key t s → Run H key t (enumerate g req s).2

theorem enumerate_sound (h : Takes H f req i j k l) (hmine : Mine f (Sound H l) s) :
    Mine f (Sound H l) (enumerate f req s).2 := by
  intro hroot
  by_cases ha : Accepts f req
  · refine (enumerate_accepts hmine ha).2 _ ?_ hroot
    exact serve_sound h hroot (selected_mine hmine)
  · rw [enumerate_not_accepts ha]
    exact hmine hroot

theorem Run.mine (h : Run H f.key t s) : Mine f (Sound H t) s := by
  generalize hkey : f.key = key at h
  induction h with
  | init => exact fun _ => .inl rfl
  | later ht _ ih => exact ih.mono fun sd hsd => hsd.mono ht
  | @own t i j k l s g req hg ht htakes _ ih =>
    have hgf : g.key = f.key := hg.trans hkey.symm
    have htl : t ≤ l := by
      have := htakes.stat_clock
      have := htakes.clock_read
      have := htakes.read
      omega
    have hmine : Mine g (Sound H l) s := (ih.congr hgf).mono fun sd hsd => hsd.mono htl
    exact (enumerate_sound htakes hmine).congr hgf.symm
  | other g req hg _ ih => exact enumerate_other ih (hkey ▸ hg)

/-- A listing that `sd_fetch` returns from its slot holds the folder's names as they were when the
request took the folder's stat. -/
theorem served_listing_current {s : State} (hrun : Run H f.key t s) (ht : t ≤ i)
    (hreq : Takes H f req i j k l) {st : Stat} (hst : f.stat = .ok st)
    (hserved : sdFetch f st req (s.selected f) = .ok (false, sd)) : Lists (H.names i) sd := by
  have hsel := selected_mine hrun.mine
  revert hserved
  fun_cases sdFetch f st req (s.selected f) with
  | case1 hst' =>
    rintro ⟨⟩
    simp only [stamped, Bool.and_eq_true, decide_eq_true_eq] at hst'
    obtain ⟨⟨_, hdid, _, hz, hstamp⟩, _⟩ := hst'
    rcases hsel with hnone | ⟨_, names, hlists, hcurrent⟩
    · -- an empty slot is of no folder
      have := f.did_pos
      rw [Savedir.key, if_neg (by omega)] at hnone
      cases hnone
    · rw [hreq.ctime st hst] at hstamp
      rw [← hcurrent hz i ht hstamp]
      exact hlists.lists
  | case2 | case3 => rintro ⟨⟩

/-- A folder of one name, to which another one is added between the first two moments; they are a
thousand seconds apart. -/
def edited : History where
  nanoseconds := true
  folder :=
    { tick := 10000000
      clock := fun n => (n + 2) * 1000000000000
      value := fun n => [⟨[97], some .file, Nat.one_pos, Nat.succ_pos 254⟩] ++
        if n = 0 then [] else [⟨[98], none, Nat.one_pos, Nat.succ_pos 254⟩]
      stamp := fun n => if n = 0 then 1000000000000 else 3000000000000
      changed := fun n => n = 0
      clock_mono := fun n => by
        push_cast
        omega
      kept := fun n hn => by simp [hn]
      behind := by
        rintro _ rfl
        decide
      start := by decide }
  tick := rfl
  seconds := by simp

/-- The folder as a request at one moment finds it. -/
def editedAt (n : ℕ) : Folder :=
  { folderWith (edited.names n) 0 with stat := .ok ⟨5, edited.ctime n⟩ }

/-- A request for no names at all. -/
def noNames (n : ℕ) : Request :=
  ⟨.enumerate, 64, 64, 0, 1, Ext.one_lt _, 5000, 65536, some (edited.clock n)⟩

/-- What that request leaves. -/
def asked (n : ℕ) (s : State) : State := (enumerate (editedAt n) (noNames n) s).2

theorem takes_editedAt (n : ℕ) : Takes edited (editedAt n) (noNames n) n n n n :=
  ⟨le_rfl, le_rfl, le_rfl, by rintro _ ⟨⟩; rfl, by rintro _ ⟨⟩; rfl, by rintro _ ⟨⟩ _; rfl,
    fun _ => rfl⟩

/-- Such a request reads the folder if its stamp is another one. -/
theorem slots_asked (n : ℕ) (s : State)
    (h : stamped (editedAt n) ⟨5, edited.ctime n⟩ (sdSelect 1 17 s.slots).inUse = false) :
    (asked n s).slots = { sdSelect 1 17 s.slots with
      inUse := position (noNames n) (sdRead (editedAt n) ⟨5, edited.ctime n⟩ (noNames n).clock
        (edited.names n) (sdSelect 1 17 s.slots).inUse) } := by
  have hlist (sd : Savedir) (hsd : sd.sindex = 1) :
      list (editedAt n) (noNames n) true sd = (.error .noobj, position (noNames n) sd) := by
    have hpos : (position (noNames n) sd).sindex = 1 := by
      unfold position
      split_ifs
      · rfl
      · exact hsd
    unfold list
    rw [walk_reached (by rw [hpos]; exact lt_irrefl 1)]
    simp only
    rw [batch_full rfl]
  have hserve : serve (editedAt n) (noNames n) (sdSelect 1 17 s.slots).inUse =
      list (editedAt n) (noNames n) true (sdRead (editedAt n) ⟨5, edited.ctime n⟩ (noNames n).clock
        (edited.names n) (sdSelect 1 17 s.slots).inUse) := by
    unfold serve sdFetch
    simp only [editedAt, folderWith] at h ⊢
    simp only [h, Bool.false_and, Bool.false_eq_true, if_false]
  rw [hlist _ rfl] at hserve
  change { sdSelect 1 17 s.slots with
    inUse := (serve (editedAt n) (noNames n) (sdSelect 1 17 s.slots).inUse).2 } = _
  rw [hserve]

/-- A request before the edit, one after it that reads the folder again, and one that is served. -/
theorem served_listing_current_edited : ∃ s sd, Run edited (editedAt 3).key 2 s ∧
      sdFetch (editedAt 3) ⟨5, edited.ctime 3⟩ (noNames 3) (s.selected (editedAt 3)) =
        .ok (false, sd) ∧ Lists (edited.names 3) sd := by
  have hfirst : Run edited (editedAt 3).key 0 (asked 0 .init) :=
    .own _ _ rfl le_rfl (takes_editedAt 0) (.init 0)
  have hrun : Run edited (editedAt 3).key 2 (asked 2 (asked 0 .init)) :=
    .own _ _ rfl (Nat.zero_le 2) (takes_editedAt 2) hfirst
  have hslots := slots_asked 0 .init rfl
  have hslots' := slots_asked 2 (asked 0 .init) (by
    rw [hslots]
    rfl)
  obtain ⟨sd, hsd⟩ : ∃ sd, sdFetch (editedAt 3) ⟨5, edited.ctime 3⟩ (noNames 3)
      ((asked 2 (asked 0 .init)).selected (editedAt 3)) = .ok (false, sd) := by
    unfold State.selected
    rw [hslots', hslots]
    exact ⟨_, rfl⟩
  exact ⟨_, sd, hrun, hsd, served_listing_current hrun (by decide) (takes_editedAt 3) rfl hsd⟩

end Netatalk.Enumerate
