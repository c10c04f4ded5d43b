import Netatalk.CnidTable

/-! # CNIDs identify objects

What the calls of `CnidTable` guarantee, from any table with unique keys.  A lookup returns the
CNID of a row that holds the identity it was given, or it leaves one row fewer that shares a name
or a file with it (`lookup_spec`).  So the loop of `cnid_sqlite_add` ends: each further attempt
finds fewer such rows, and an attempt without the hint fails only while there is one
(`addLoop_spec`).  No row that shares neither the name nor the file is touched. -/

namespace Netatalk.Cnid

open List List

/-- Two rows agree on a unique key of the table. -/
def Clash (a b : Row) : Prop := a.id = b.id ∨ b.toIdent.shares a = true

variable {r : Row}

theorem Ident.shares_iff {q : Ident} : q.shares r = true ↔
    (r.name = q.name ∧ r.did = q.did) ∨ (r.dev = q.dev ∧ r.ino = q.ino) := by
  simp [Ident.shares, Ident.sameName, Ident.sameFile]

variable {a b : Row} {s' : State}

theorem Clash.symm (h : Clash a b) : Clash b a := by
  unfold Clash at *
  rw [Ident.shares_iff] at *
  rcases h with h | ⟨h₁, h₂⟩ | ⟨h₁, h₂⟩
  · exact .inl h.symm
  · exact .inr (.inl ⟨h₁.symm, h₂.symm⟩)
  · exact .inr (.inr ⟨h₁.symm, h₂.symm⟩)

/-- An identity that a caller can give: a parent of at least 2, a name of 1 to `MAXPATHLEN - 1`
bytes without NUL, and an inode above 0. -/
structure Ident.Valid (maxpathlen : ℕ) (q : Ident) : Prop where
  did_ge : 2 ≤ q.did
  did_le : q.did ≤ uint32Max
  name_pos : q.name ≠ []
  name_lt : q.name.length < maxpathlen
  name_nul : 0 ∉ q.name
  ino_pos : 0 < q.ino

variable {db : Sqlite} {s : State} {q : Ident}

/-- A row of a table whose largest rowid was `seq`. -/
structure RowOk (maxpathlen seq : ℕ) (r : Row) : Prop where
  valid : r.toIdent.Valid maxpathlen
  id_pos : 0 < r.id
  id_le : r.id ≤ uint32Max
  id_seq : r.id ≤ seq

/-- The table is in order: its keys are unique and its rows are valid. -/
structure Wf (maxpathlen : ℕ) (s : State) : Prop where
  unique : UniqueRows Clash s.rows
  row : ∀ r ∈ s.rows, RowOk maxpathlen s.seq r

section wf
variable {m id : ℕ} (h : Wf m s)
include h

theorem Wf.eq_of_id (ha : a ∈ s.rows) (hb : b ∈ s.rows) (hid : a.id = b.id) : a = b :=
  h.unique.eq_of_clash Clash.symm ha hb (.inl hid)

theorem Wf.eq_of_shares (ha : a ∈ s.rows) (hb : b ∈ s.rows)
    (hs : b.toIdent.shares a = true) : a = b :=
  h.unique.eq_of_clash Clash.symm ha hb (.inr hs)

theorem Wf.nodup : s.rows.Nodup := by
  apply h.unique.imp
  rintro a b hc rfl
  exact hc (.inl rfl)

/-! ### Statements -/

theorem Wf.filter (p : Row → Bool) : Wf m { s with rows := s.rows.filter p } where
  unique := h.unique.filter p
  row r hr := h.row r (mem_of_mem_filter hr)

omit h in
theorem putRow_eq_some (hp : putRow id q s = some s') :
    (∀ r ∈ s.rows, r.id ≠ id ∧ q.shares r = false) ∧
      s' = { s with rows := s.rows ++ [⟨q, id⟩], seq := max s.seq id } := by
  unfold putRow at hp
  split_ifs at hp with hany
  simp only [any_eq_true, not_exists, not_and, Bool.or_eq_true, decide_eq_true_eq,
    not_or, Bool.not_eq_true] at hany
  exact ⟨hany, (Option.some.inj hp).symm⟩

omit h in
theorem putRow_isSome (hnone : ∀ r ∈ s.rows, r.id ≠ id ∧ q.shares r = false) :
    ∃ s', putRow id q s = some s' := by
  unfold putRow
  rw [if_neg]
  · exact ⟨_, rfl⟩
  · simpa [any_eq_true] using hnone

theorem Wf.putRow (hq : q.Valid m) (h₀ : 0 < id) (h₁ : id ≤ uint32Max)
    (hp : putRow id q s = some s') : Wf m s' := by
  obtain ⟨hnone, rfl⟩ := putRow_eq_some hp
  refine ⟨h.unique.insert fun a ha hc => ?_, fun r hr => ?_⟩
  · rcases hc with hc | hc
    · exact (hnone a ha).1 hc
    · rw [(hnone a ha).2] at hc
      cases hc
  · rcases mem_append.mp hr with hr | hr
    · have hok := h.row r hr
      exact { hok with id_seq := hok.id_seq.trans (le_max_left _ _) }
    · rw [mem_singleton.mp hr]
      exact ⟨hq, h₀, h₁, le_max_right _ _⟩

theorem Wf.deleteId_rows (hr : r ∈ s.rows) : (deleteId r.id s).rows = s.rows.erase r := by
  rw [h.nodup.erase_eq_filter]
  apply filter_congr
  intro a ha
  have hiff : a.id = r.id ↔ a = r := ⟨h.eq_of_id ha hr, fun e => e ▸ rfl⟩
  by_cases he : a = r <;> simp [hiff, he]

/-- The row of a rowid is rewritten when no other row shares a pair with the new identity. -/
theorem Wf.updateRow {changed : Bool} (hq : q.Valid m) (hu : updateRow id q s = some (changed, s'))
    : Wf m s' ∧ (changed = true → ⟨q, id⟩ ∈ s'.rows) ∧ (changed = false → s' = s) := by
  unfold Cnid.updateRow at hu
  split_ifs at hu with hid hother
  · cases hu
    simp only [any_eq_true, decide_eq_true_eq] at hid
    obtain ⟨r, hr, rfl⟩ := hid
    simp only [any_eq_true, Bool.and_eq_true, decide_eq_true_eq, not_exists, not_and,
      Bool.not_eq_true] at hother
    refine ⟨⟨?_, fun a ha => ?_⟩, fun _ => ?_, by simp⟩
    · have hrw := h.unique.rewrite Clash.symm (p := fun a => decide (a.id = r.id)) (r := ⟨q, r.id⟩)
        (fun ha hb => .inl (by simp_all)) (fun a ha hne hc => ?_)
      · simpa using hrw
      · rcases hc with hc | hc
        · simp_all
        · rw [hother a ha (by simpa using hne)] at hc
          cases hc
    · obtain ⟨b, hb, rfl⟩ := mem_map.mp ha
      have hok := h.row b hb
      split_ifs with he
      · exact ⟨hq, he ▸ hok.id_pos, he ▸ hok.id_le, he ▸ hok.id_seq⟩
      · exact hok
    · exact mem_map.mpr ⟨r, hr, by simp⟩
  · cases hu
    exact ⟨h, by simp, fun _ => rfl⟩

theorem Wf.tryUpdate (hq : q.Valid m) (h₀ : 0 < id) (h₁ : id ≤ uint32Max)
    (hu : tryUpdate id q s = some s') : Wf m s' ∧ ⟨q, id⟩ ∈ s'.rows := by
  unfold Cnid.tryUpdate at hu
  split at hu
  · cases hu
  · rename_i hrow
    cases hu
    have := h.updateRow hq hrow
    exact ⟨this.1, this.2.1 rfl⟩
  · rename_i s₁ hrow
    have hs₁ := (h.updateRow hq hrow).2.2 rfl
    subst hs₁
    refine ⟨h.putRow hq h₀ h₁ hu, ?_⟩
    rw [(putRow_eq_some hu).2]
    simp

end wf

/-! ### The rows that share a pair -/

/-- The number of rows that share a name or a file with the identity. -/
def shareCount (q : Ident) (s : State) : ℕ := s.rows.countP q.shares

/-- The rows that share neither are the same. -/
def Keeps (q : Ident) (s s' : State) : Prop :=
  (s'.rows.filter fun r => !q.shares r) = s.rows.filter fun r => !q.shares r

theorem Keeps.refl (q : Ident) (s : State) : Keeps q s s := rfl

theorem Keeps.trans {s'' : State} (h : Keeps q s s') (h' : Keeps q s' s'') : Keeps q s s'' :=
  Eq.trans h' h

theorem Keeps.mem_iff (h : Keeps q s s') (hr : q.shares r = false) : r ∈ s'.rows ↔ r ∈ s.rows := by
  have hf : ∀ t : State, r ∈ t.rows ↔ r ∈ t.rows.filter fun r => !q.shares r := by
    intro t
    simp [hr]
  rw [hf, hf, h]

theorem keeps_putRow {id : ℕ} (hp : putRow id q s = some s') : Keeps q s s' := by
  obtain ⟨-, rfl⟩ := putRow_eq_some hp
  have hself : q.shares ⟨q, id⟩ = true := Ident.shares_iff.mpr (.inl ⟨rfl, rfl⟩)
  simp [Keeps, hself]

section share
variable {m : ℕ} (h : Wf m s)
include h

theorem Wf.shareCount_le : shareCount q s ≤ 2 := by
  have hu : (s.rows.filter q.shares).Pairwise (fun a b => ¬ Clash a b) := h.unique.filter _
  have hs : ∀ a ∈ s.rows.filter q.shares, q.shares a = true := fun a ha => of_mem_filter ha
  rw [shareCount, countP_eq_length_filter]
  match hl : s.rows.filter q.shares with
  | [] => simp
  | [_] => simp
  | [_, _] => simp
  | a :: b :: c :: l =>
    rw [hl] at hu hs
    have hab : ¬ Clash a b := (pairwise_cons.mp hu).1 b (by simp)
    have hac : ¬ Clash a c := (pairwise_cons.mp hu).1 c (by simp)
    have hbc : ¬ Clash b c := (pairwise_cons.mp (pairwise_cons.mp hu).2).1 c (by simp)
    have ha := hs a (by simp)
    have hb := hs b (by simp)
    have hc := hs c (by simp)
    simp only [Clash, Ident.shares_iff, not_or] at hab hac hbc ha hb hc
    grind

variable {r : Row} (hr : r ∈ s.rows) (hs : q.shares r = true)
include hr hs

theorem Wf.shareCount_deleteId : shareCount q (deleteId r.id s) + 1 = shareCount q s := by
  rw [shareCount, shareCount, h.deleteId_rows hr, (perm_cons_erase hr).countP_eq]
  simp [hs]

theorem Wf.keeps_deleteId : Keeps q s (deleteId r.id s) := by
  unfold Keeps
  rw [deleteId, filter_filter]
  apply filter_congr
  intro a ha
  by_cases he : a.id = r.id
  · rw [h.eq_of_id ha hr he]
    simp [hs]
  · simp [he]

theorem Wf.eq_of_shareCount (hone : shareCount q s = 1) {a : Row} (ha : a ∈ s.rows)
    (hsa : q.shares a = true) : a = r := by
  by_contra hne
  have hcount := h.shareCount_deleteId hr hs
  rw [hone, Nat.add_eq_right, shareCount, h.deleteId_rows hr, countP_eq_zero] at hcount
  exact hcount a ((mem_erase_of_ne hne).mpr ha) hsa

/-- Rewriting the only row that shares a pair keeps the others. -/
theorem Wf.rewrite_only (hone : shareCount q s = 1) :
    ∃ s', Cnid.tryUpdate r.id q s = some s' ∧ Keeps q s s' ∧ s'.hint = s.hint ∧ s'.seq = s.seq ∧
      s'.depleted = s.depleted := by
  have honly := @Wf.eq_of_shareCount _ _ _ h _ hr hs hone
  have hid : s.rows.any (fun a => a.id = r.id) = true := any_eq_true.mpr ⟨r, hr, by simp⟩
  have hother : s.rows.any (fun a => a.id ≠ r.id && q.shares a) = false := by
    rw [any_eq_false]
    intro a ha hc
    simp only [Bool.and_eq_true, decide_eq_true_eq] at hc
    exact hc.1 (congrArg Row.id (honly ha hc.2))
  refine ⟨{ s with rows := s.rows.map fun a => if a.id = r.id then ⟨q, r.id⟩ else a }, ?_, ?_,
    rfl, rfl, rfl⟩
  · simp only [Cnid.tryUpdate, Cnid.updateRow, hid, hother, if_true, Bool.false_eq_true, if_false]
  have hself : q.shares ⟨q, r.id⟩ = true := Ident.shares_iff.mpr (.inl ⟨rfl, rfl⟩)
  unfold Keeps
  rw [filter_map]
  -- the row is left out before and after, and the others are not rewritten
  have hsame : (s.rows.filter ((fun a => !q.shares a) ∘
      fun a => if a.id = r.id then ⟨q, r.id⟩ else a)) = s.rows.filter fun a => !q.shares a := by
    apply filter_congr
    intro a ha
    by_cases he : a.id = r.id
    · have har := h.eq_of_id ha hr he
      subst har
      simp [hself, hs]
    · simp [he]
  rw [hsame]
  conv_rhs => rw [← map_id (s.rows.filter fun a => !q.shares a)]
  apply map_congr_left
  intro a ha
  obtain ⟨ha, hna⟩ := mem_filter.mp ha
  have hne : a.id ≠ r.id := by
    intro he
    rw [h.eq_of_id ha hr he, hs] at hna
    cases hna
  simp [hne]

end share

/-! ### Lookup -/

/-- What the call leaves as it is, besides a table in order. -/
structure Frame (m : ℕ) (q : Ident) (s s' : State) : Prop where
  wf : Wf m s'
  keeps : Keeps q s s'
  hint : s'.hint = s.hint
  seq : s'.seq = s.seq
  depleted : s'.depleted = s.depleted

/-- A lookup finds the row that holds the identity, or there is one row less that shares a pair
with it. -/
inductive LookupOk (q : Ident) (s s' : State) : Except Err ℕ → Prop where
  | found {id : ℕ} : ⟨q, id⟩ ∈ s'.rows → LookupOk q s s' (.ok id)
  | missing : shareCount q s' = shareCount q s - 1 → LookupOk q s s' (.error .notFound)

theorem lookupOk_of_select {m n : ℕ} {r : Except Err ℕ}
    (h : Frame m q { s with selects := n } s' ∧ LookupOk q { s with selects := n } s' r) :
    Frame m q s s' ∧ LookupOk q s s' r := by
  obtain ⟨hf, hok⟩ := h
  refine ⟨{ hf with }, ?_⟩
  cases hok with
  | found hm => exact .found hm
  | missing hc => exact .missing hc

theorem RowOk.rowidOk {m seq : ℕ} (hok : RowOk m seq r) :
    cnidSqliteRowidOk r.id = true ∧ cnidSqliteRowidOk r.did = true := by
  have := hok.id_pos
  have := hok.id_le
  have := hok.valid.did_ge
  have := hok.valid.did_le
  simp only [cnidSqliteRowidOk, Bool.and_eq_true, decide_eq_true_eq]
  omega

section lookup
variable (h : Wf db.maxpathlen s) (hq : q.Valid db.maxpathlen)
include h

theorem frame_deleteId (hr : r ∈ s.rows) (hs : q.shares r = true) :
    Frame db.maxpathlen q s (deleteId r.id s) ∧
      LookupOk q s (deleteId r.id s) (.error .notFound) := by
  refine ⟨⟨h.filter _, h.keeps_deleteId hr hs, rfl, rfl, rfl⟩, .missing ?_⟩
  have := h.shareCount_deleteId hr hs
  omega

include hq

theorem lookupRow_spec (hr : r ∈ s.rows) (hs : q.shares r = true) (hone : shareCount q s = 1) :
    Frame db.maxpathlen q s (lookupRow db q r s).2 ∧
      LookupOk q s (lookupRow db q r s).2 (lookupRow db q r s).1 := by
  have hok := h.row r hr
  have hname : lookupName db r = r.name := by
    rw [lookupName, take_of_length_le]
    have := hok.valid.name_lt
    omega
  obtain ⟨hid, hdid⟩ := hok.rowidOk
  obtain ⟨s', hu, hkeeps, hhint, hseq, hdep⟩ := h.rewrite_only hr hs hone
  obtain ⟨hwf, hmem⟩ := h.tryUpdate hq hok.id_pos hok.id_le hu
  have hupdate : cnidSqliteUpdate db r.id q s = (.ok (), s') := by
    have h₀ := hok.id_pos
    have h₁ := hq.name_lt
    rw [cnidSqliteUpdate, if_neg (by omega), if_neg (by omega), hu]
  simp only [lookupRow, hid, hdid, Bool.not_true, Bool.or_self, Bool.false_eq_true, if_false]
  split_ifs with hmoved hhinted hfile
  · exact frame_deleteId h hr hs
  · rw [hupdate]
    exact ⟨⟨hwf, hkeeps, hhint, hseq, hdep⟩, .found hmem⟩
  · exact frame_deleteId h hr hs
  · refine ⟨⟨h, .refl q s, rfl, rfl, rfl⟩, .found ?_⟩
    have heq : (⟨q, r.id⟩ : Row) = r := by
      obtain ⟨⟨did, name, dev, ino⟩, id⟩ := r
      simp_all
    rw [heq]
    exact hr

theorem lookup_spec : Frame db.maxpathlen q s (cnidSqliteLookup db q s).2 ∧
    LookupOk q s (cnidSqliteLookup db q s).2 (cnidSqliteLookup db q s).1 := by
  have hlen := hq.name_lt
  have hdid := hq.did_ge
  have h₁ : Wf db.maxpathlen { s with selects := s.selects + 1 } := { h with }
  have hcount : (db.order s.selects (s.rows.filter q.shares)).length = shareCount q s := by
    rw [(db.perm _ _).length_eq, shareCount, countP_eq_length_filter]
  have hmem : ∀ r ∈ db.order s.selects (s.rows.filter q.shares),
      r ∈ s.rows ∧ q.shares r = true := by
    intro r hr
    exact mem_filter.mp ((db.perm _ _).mem_iff.mp hr)
  have hle := h.shareCount_le (q := q)
  rw [cnidSqliteLookup, if_neg (by omega), if_neg (by omega)]
  simp only [selectLookup]
  match hl : db.order s.selects (s.rows.filter q.shares) with
  | [] =>
    rw [hl, length_nil] at hcount
    refine ⟨⟨h₁, rfl, rfl, rfl, rfl⟩, .missing ?_⟩
    exact hcount.symm.trans (by omega)
  | [r] =>
    rw [hl] at hcount hmem
    obtain ⟨hr, hs⟩ := hmem r (by simp)
    exact lookupOk_of_select (lookupRow_spec h₁ hq hr hs hcount.symm)
  | [r, r'] =>
    rw [hl] at hmem
    obtain ⟨hr, hs⟩ := hmem r' (by simp)
    have hextra : deleteExtra [r'] { s with selects := s.selects + 1 } =
        (false, deleteId r'.id { s with selects := s.selects + 1 }) := by
      simp [deleteExtra, (h.row r' hr).rowidOk.1]
    simp only [take_succ_cons, take_nil]
    rw [hextra]
    exact lookupOk_of_select (frame_deleteId h₁ hr hs)
  | _ :: _ :: _ :: _ =>
    rw [hl] at hcount
    simp only [length_cons] at hcount
    omega

end lookup

/-! ### Add -/

/-- An add gives the identity a row and keeps the rows that share nothing with it, unless it takes
the last CNID: that empties the table. -/
inductive AddOk (m : ℕ) (q : Ident) (s s' : State) : Except Err ℕ → Prop where
  | added {id : ℕ} : ⟨q, id⟩ ∈ s'.rows → Wf m s' → Keeps q s s' → AddOk m q s s' (.ok id)
  | reset : uint32Max ≤ s.seq + 1 → Wf m s' → AddOk m q s s' (.error .reset)

theorem AddOk.trans {m : ℕ} {s₁ : State} {r : Except Err ℕ} (hf : Keeps q s s₁)
    (hseq : s₁.seq = s.seq) (h : AddOk m q s₁ s' r) : AddOk m q s s' r := by
  cases h with
  | added hm hwf hk => exact .added hm hwf (hf.trans hk)
  | reset hs hwf => exact .reset (hseq ▸ hs) hwf

section add
variable {m : ℕ} (h : Wf m s) (hq : q.Valid m)
include h hq

/-- A row that was inserted with a rowid that the table had not reached, or with a hint. -/
theorem finishAdd_spec {id : ℕ} (hid : id = s.seq + 1 ∨ 0 < id ∧ id < uint32Max)
    (hp : putRow id q s = some s') : AddOk m q s (finishAdd id s').2 (finishAdd id s').1 := by
  unfold finishAdd
  split_ifs with hmax h0
  · refine .reset (by omega) ⟨.nil, by simp⟩
  · omega
  · refine .added ?_ (h.putRow hq (by omega) (by omega) hp) (keeps_putRow hp)
    rw [(putRow_eq_some hp).2]
    simp

variable {insertable : Bool} (hhint : insertable = true → 0 < s.hint ∧ s.hint < uint32Max)
include hhint

theorem insertIdent_some {lastid : ℕ} (hi : insertIdent insertable q s = some (lastid, s')) :
    AddOk m q s (finishAdd lastid s').2 (finishAdd lastid s').1 := by
  unfold insertIdent at hi
  split_ifs at hi with hauto
  · obtain ⟨s₁, hp, he⟩ := Option.map_eq_some_iff.mp hi
    obtain ⟨rfl, rfl⟩ := he
    exact finishAdd_spec h hq (.inl rfl) hp
  · obtain ⟨s₁, hp, he⟩ := Option.map_eq_some_iff.mp hi
    obtain ⟨rfl, rfl⟩ := he
    simp only [Bool.or_eq_true, Bool.not_eq_true', not_or, Bool.not_eq_false] at hauto
    exact finishAdd_spec h hq (.inr (hhint hauto.1)) hp

omit hhint hq in
theorem insertIdent_none (h0 : shareCount q s = 0) (hi : insertIdent insertable q s = none) :
    insertable = true := by
  rw [shareCount, countP_eq_zero] at h0
  by_contra hins
  have hnone : ∀ r ∈ s.rows, r.id ≠ s.seq + 1 ∧ q.shares r = false := by
    intro r hr
    have := (h.row r hr).id_seq
    exact ⟨by omega, by simpa using h0 r hr⟩
  obtain ⟨s', hs'⟩ := putRow_isSome hnone
  rw [Bool.not_eq_true] at hins
  simp [insertIdent, hins, addRow, hs'] at hi

end add

/-- The loop ends: the attempts needed are the rows that share a pair, one more while the hint may
collide, and the last. -/
theorem addLoop_spec (h : Wf db.maxpathlen s) (hq : q.Valid db.maxpathlen) {attempts : ℕ}
    {insertable : Bool} (hhint : insertable = true → 0 < s.hint ∧ s.hint < uint32Max)
    (hn : shareCount q s + (if insertable then 1 else 0) < attempts) :
    AddOk db.maxpathlen q s (addLoop db q attempts insertable s).2
      (addLoop db q attempts insertable s).1 := by
  induction attempts generalizing s insertable with
  | zero => omega
  | succ n ih =>
    have hvalid : ¬ (q.name = [] ∨ q.did = 0 ∨ q.ino = 0) := by
      have h₁ := hq.name_pos
      have h₂ := hq.did_ge
      have h₃ := hq.ino_pos
      simp only [h₁, false_or]
      omega
    obtain ⟨hf, hok⟩ := lookup_spec h hq
    rw [addLoop]
    generalize cnidSqliteLookup db q s = res at hf hok ⊢
    obtain ⟨ret, s₁⟩ := res
    cases hok with
    | found hm => exact .added hm hf.wf hf.keeps
    | missing hc =>
      have hhint₁ : insertable = true → 0 < s₁.hint ∧ s₁.hint < uint32Max := by
        rw [hf.hint]
        exact hhint
      simp only [if_neg hvalid]
      cases hi : insertIdent insertable q s₁ with
      | some => exact (insertIdent_some hf.wf hq hhint₁ hi).trans hf.keeps hf.seq
      | none =>
        -- a further attempt runs without the hint, with one row less in its way
        have hless : shareCount q s₁ < n := by
          simp only at hc
          by_cases h0 : shareCount q s₁ = 0
          · rw [insertIdent_none hf.wf h0 hi, if_pos rfl] at hn
            omega
          · split_ifs at hn <;> omega
        have hwf : Wf db.maxpathlen { s₁ with hint := 0 } := ⟨hf.wf.unique, hf.wf.row⟩
        have hkeeps : Keeps q s { s₁ with hint := 0 } := hf.keeps
        exact AddOk.trans hkeeps hf.seq (ih hwf (by simp) hless)

theorem AddOk.withHint {m hint hint' : ℕ} {r : Except Err ℕ}
    (h : AddOk m q { s with hint := hint } s' r) : AddOk m q s { s' with hint := hint' } r := by
  cases h with
  | added hm hwf hk => exact .added hm { hwf with } hk
  | reset hs hwf => exact .reset hs { hwf with }

section calls
variable (h : Wf db.maxpathlen s) (hq : q.Valid db.maxpathlen)
include h hq

theorem add_spec (hint : ℕ) :
    AddOk db.maxpathlen q s (cnidSqliteAdd db q hint s).2 (cnidSqliteAdd db q hint s).1 := by
  have hlen := hq.name_lt
  have hwf : Wf db.maxpathlen { s with hint := hint } := { h with }
  have hle : shareCount q { s with hint := hint } ≤ 2 := hwf.shareCount_le
  rw [cnidSqliteAdd, if_neg (by omega)]
  apply AddOk.withHint
  apply addLoop_spec hwf hq
  · intro hins
    simp only [Bool.and_eq_true, cnidSqliteHintUsable, decide_eq_true_eq] at hins
    have : cnidSqliteMaxHint < uint32Max := by decide
    exact ⟨by simp only; omega, by simp only; omega⟩
  · simp only [cnidSqliteAddAttempts]
    split_ifs <;> omega

variable {id : ℕ}

theorem lookup_of_mem (hm : ⟨q, id⟩ ∈ s.rows) :
    cnidSqliteLookup db q s = (.ok id, { s with selects := s.selects + 1 }) := by
  have hlen := hq.name_lt
  have hdid := hq.did_ge
  have hself : q.shares ⟨q, id⟩ = true := Ident.shares_iff.mpr (.inl ⟨rfl, rfl⟩)
  have hperm := db.perm s.selects (s.rows.filter q.shares)
  have hall : ∀ r ∈ db.order s.selects (s.rows.filter q.shares), r = ⟨q, id⟩ := by
    intro r hr
    obtain ⟨hr, hs⟩ := mem_filter.mp (hperm.mem_iff.mp hr)
    exact h.eq_of_shares hr hm hs
  have hone : db.order s.selects (s.rows.filter q.shares) = [⟨q, id⟩] := by
    rw [eq_replicate_of_mem hall, Perm.length_eq hperm]
    have hn : ((s.rows.filter q.shares)).Nodup := h.nodup.filter _
    rw [← hperm.nodup_iff, eq_replicate_of_mem hall, hperm.length_eq,
      nodup_replicate] at hn
    have hpos : 0 < (s.rows.filter q.shares).length :=
      length_pos_of_mem (mem_filter.mpr ⟨hm, hself⟩)
    rw [show (s.rows.filter q.shares).length = 1 by omega]
    rfl
  have hok := h.row _ hm
  obtain ⟨hid, hd⟩ := hok.rowidOk
  have hname : lookupName db ⟨q, id⟩ = q.name := by
    rw [lookupName, take_of_length_le]
    simp only
    omega
  rw [cnidSqliteLookup, if_neg (by omega), if_neg (by omega)]
  simp only [selectLookup, hone]
  simp [lookupRow, hid, hd, hname]

theorem add_of_mem (hm : ⟨q, id⟩ ∈ s.rows) (hint : ℕ) : (cnidSqliteAdd db q hint s).1 = .ok id := by
  have hlen := hq.name_lt
  have hwf : Wf db.maxpathlen { s with hint := hint } := { h with }
  have hl := lookup_of_mem hwf hq hm
  rw [cnidSqliteAdd, if_neg (by omega)]
  simp [cnidSqliteAddAttempts, addLoop, hl]

theorem update_wf (hid : id ≤ uint32Max) : Wf db.maxpathlen (cnidSqliteUpdate db id q s).2 := by
  unfold cnidSqliteUpdate
  split_ifs with h0 hpath
  · exact h
  · exact h
  · have hcleared : Wf db.maxpathlen (deleteShares q s) := (h.filter _).filter _
    cases h₁ : tryUpdate id q s with
    | some s₁ => exact (h.tryUpdate hq (by omega) hid h₁).1
    | none =>
      cases h₂ : tryUpdate id q (deleteShares q s) with
      | some s₂ => exact (hcleared.tryUpdate hq (by omega) hid h₂).1
      | none => exact h

end calls

/-! ### Runs -/

variable (db)

/-- A call with valid arguments; CNIDs and hints have 32 bits. -/
def Call.Valid : Call → Prop
  | .add st did name hint => (ident db st did name).Valid db.maxpathlen ∧ hint ≤ uint32Max
  | .lookup st did name => (ident db st did name).Valid db.maxpathlen
  | .update id st did name => (ident db st did name).Valid db.maxpathlen ∧ id ≤ uint32Max
  | .delete id => id ≤ uint32Max

variable {db}

theorem Wf.call (h : Wf db.maxpathlen s) {c : Call} (hc : c.Valid db) :
    Wf db.maxpathlen (call db c s) := by
  cases c with
  | add st did name hint =>
    have hok := add_spec h hc.1 hint
    simp only [Cnid.call]
    generalize cnidSqliteAdd db (ident db st did name) hint s = res at hok ⊢
    obtain ⟨ret, s'⟩ := res
    cases hok with
    | added _ hwf => exact hwf
    | reset _ hwf => exact hwf
  | lookup => exact (lookup_spec h hc).1.wf
  | update => exact update_wf h hc.1 hc.2
  | delete =>
    simp only [Cnid.call, cnidSqliteDelete]
    split_ifs
    · exact h
    · exact h.filter _

theorem run_wf {cs : List Call} (hcs : ∀ c ∈ cs, c.Valid db) (h : Wf db.maxpathlen s) :
    Wf db.maxpathlen (run db cs s) := by
  induction cs generalizing s with
  | nil => exact h
  | cons c cs ih =>
    exact ih (fun c' hc' => hcs c' (by simp [hc'])) (h.call (hcs c (by simp)))

theorem wf_init (m : ℕ) : Wf m init := ⟨List.Pairwise.nil, by simp [init]⟩

/-- What an add and a lookup of an identity do to the table `s`. -/
structure Identifies (db : Sqlite) (s : State) (q : Ident) (hint : ℕ) : Prop where
  /-- an add returns a CNID whose row holds exactly the identity, and returns it again whatever the
  hint of the repetition; only an add that takes the last CNID does not -/
  add : (uint32Max ≤ s.seq + 1 ∧ (cnidSqliteAdd db q hint s).1 = .error .reset) ∨
    ∃ id s', cnidSqliteAdd db q hint s = (.ok id, s') ∧
      (∀ r, r ∈ s'.rows ∧ r.id = id ↔ r = ⟨q, id⟩) ∧
      (∀ hint', (cnidSqliteAdd db q hint' s').1 = .ok id) ∧
      ∀ r, q.shares r = false → (r ∈ s'.rows ↔ r ∈ s.rows)
  /-- a lookup touches no row that shares neither the name nor the file -/
  lookup : ∀ r, q.shares r = false → (r ∈ (cnidSqliteLookup db q s).2.rows ↔ r ∈ s.rows)

/-- CNIDs identify objects, whatever calls came before. -/
theorem run_identifies (db : Sqlite) (cs : List Call) (hcs : ∀ c ∈ cs, c.Valid db) (st : Stat)
    (did : ℕ) (name : List UInt8) (hq : (ident db st did name).Valid db.maxpathlen) (hint : ℕ) :
    Identifies db (run db cs init) (ident db st did name) hint := by
  have h := run_wf hcs (wf_init db.maxpathlen)
  refine ⟨?_, fun r hr => (lookup_spec h hq).1.keeps.mem_iff hr⟩
  have hok := add_spec h hq hint
  generalize cnidSqliteAdd db (ident db st did name) hint (run db cs init) = res at hok ⊢
  obtain ⟨ret, s'⟩ := res
  cases hok with
  | reset hs => exact .inl ⟨hs, rfl⟩
  | added hm hwf hk =>
    refine .inr ⟨_, s', rfl, fun r => ⟨fun hr => ?_, ?_⟩, add_of_mem hwf hq hm,
      fun r hr => hk.mem_iff hr⟩
    · exact hwf.eq_of_id hr.1 hm hr.2
    · rintro rfl
      exact ⟨hm, rfl⟩

/-- A database that answers in the order of insertion. -/
def plainDb : Sqlite := ⟨fun _ rows => rows, fun _ rows => .refl rows, 4096, false⟩

theorem valid_plainDb (st : Stat) (c : UInt8) (hc : c ≠ 0) (hino : 0 < st.ino) :
    (ident plainDb st 2 [c]).Valid plainDb.maxpathlen :=
  ⟨le_rfl, by simp [ident, uint32Max], by simp [ident], by simp [ident, plainDb],
    by simpa [ident] using hc.symm, hino⟩

/-- The name of one file and the inode of another, with the hint of a third. -/
theorem run_identifies_collision : Identifies plainDb
      (run plainDb [.add ⟨1, 5⟩ 2 [97] 0, .add ⟨1, 6⟩ 2 [98] 40, .add ⟨1, 7⟩ 2 [99] 50] init)
      (ident plainDb ⟨1, 6⟩ 2 [97]) 50 := by
  apply run_identifies
  · intro c hc
    simp only [mem_cons, not_mem_nil, or_false] at hc
    rcases hc with rfl | rfl | rfl
    all_goals exact ⟨valid_plainDb _ _ (by decide) (by decide), by decide⟩
  · exact valid_plainDb _ _ (by decide) (by decide)

end Netatalk.Cnid
