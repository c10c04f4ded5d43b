import Netatalk.CnidIdentity

/-! # Folder tables

While a folder's listing runs, `cnid_add` of `libatalk/cnid/cnid.c` may answer from a table of
the folder's rows in place of the backend.  A table is armed for a folder, loads all its rows
with one query at the folder's seventeenth call, and answers an object that has not changed since
then and whose row in the table has its device and inode.  `cnid_update` and `cnid_delete` turn
the loaded tables off, since they may move a row.

`cnid_add` of the backend may move a row as well: the second name of a hard link takes the row
of the first.  And a table knows names by their hash only.  `table_exact` says that these are
the only two ways for a table to answer with a CNID that is not the object's.

* Time is an input: `now` of a call is what `time` returns in it.
* A query or an allocation may fail; `loads` of a call says that those of the load do not. -/

namespace Netatalk.Cnid

open List Option

/-- `DIRTABS`. -/
def dirtabs : ℕ := 9

/-- `CNID_DIRTAB_MISSES`. -/
def cnidDirtabMisses : ℕ := 16

/-- `CNID_DIRTAB_ROWS`. -/
def cnidDirtabRows : ℕ := 65536

/-- `CNID_DIRTAB_PROBES`. -/
def cnidDirtabProbes : ℕ := 128

inductive DirtabState where
  | free
  | armed
  | ready
  | off
deriving DecidableEq, Repr

/-- A folder's row, its name kept as a hash (`struct cnid_dirrow`). -/
structure DirRow where
  hash : UInt64
  dev : ℕ
  ino : ℕ
  id : ℕ
deriving DecidableEq, Repr

/-- The rows of one folder (`struct cnid_dirtab`).  A slot of `index` holds the row number plus
one, 0 for a free slot. -/
structure Dirtab where
  did : ℕ
  state : DirtabState
  armed : ℕ
  calls : ℕ
  loaded : ℤ
  rows : List DirRow
  index : List ℕ
deriving DecidableEq, Repr

/-- `dirtab_empty`. -/
def dirtabEmpty : Dirtab := ⟨0, .free, 0, 0, 0, [], []⟩

/-- `dirtab_hash`: FNV-1a. -/
def dirtabHash (name : List UInt8) : UInt64 :=
  name.foldl (fun h b => (h ^^^ b.toUInt64) * 1099511628211) 14695981039346656037

/-! ### One table -/

/-- What a table keeps of a row. -/
def Row.entry (r : Row) : DirRow := ⟨dirtabHash r.name, r.dev, r.ino, r.id⟩

/-- `dirtab_take`: rows with a CNID out of range stay the backend's to answer. -/
def dirtabTake (r : Row) : Option DirRow :=
  if cnidSqliteRowidOk r.id then some r.entry else none

/-- The number of slots, doubled until half of them stay free. -/
def growSlots (count : ℕ) : ℕ → ℕ → ℕ
  | 0, slots => slots
  | fuel + 1, slots => if slots < 2 * count then growSlots count fuel (slots * 2) else slots

/-- The first free slot from `s` on, within a number of probes. -/
def freeSlot (index : List ℕ) : ℕ → ℕ → Option ℕ
  | 0, _ => none
  | probes + 1, s =>
    if index.getD s 0 = 0 then some s else freeSlot index probes ((s + 1) % index.length)

/-- The index over the rows, or none when a row finds no slot. -/
def buildIndex (rows : List DirRow) : Option (List ℕ) :=
  let slots := growSlots rows.length 32 16
  rows.zipIdx.foldlM
    (fun index r => (freeSlot index cnidDirtabProbes (r.1.hash.toNat % slots)).map fun s =>
      index.set s (r.2 + 1))
    (List.replicate slots 0)

/-- The row of a hash, looked for in a number of slots. -/
def probe (t : Dirtab) (hash : UInt64) : ℕ → ℕ → Option DirRow
  | 0, _ => none
  | probes + 1, s =>
    match t.index.getD s 0 with
    | 0 => none
    | r + 1 =>
      match t.rows[r]? with
      | none => none
      | some row =>
        if row.hash = hash then some row else probe t hash probes ((s + 1) % t.index.length)

/-- `dirtab_lookup`. -/
def dirtabLookup (t : Dirtab) (q : Ident) : Option ℕ :=
  let hash := dirtabHash q.name
  (probe t hash cnidDirtabProbes (hash.toNat % t.index.length)).bind fun row =>
    if row.dev = q.dev ∧ row.ino = q.ino then some row.id else none

variable (db : Sqlite)

/-- `cnid_sqlite_dirlist`. -/
def cnidSqliteDirlist (did max : ℕ) (s : State) : List Row × State :=
  ((db.order s.selects (s.rows.filter fun r => r.did = did)).take max,
    { s with selects := s.selects + 1 })

/-- `dirtab_load`. -/
def dirtabLoad (t : Dirtab) (now : ℤ) (loads : Bool) (s : State) : Dirtab × State :=
  let t := { t with state := .off, loaded := now - 1 }
  let (found, s) := cnidSqliteDirlist db t.did cnidDirtabRows s
  if !loads then (t, s)
  else
    let t := { t with rows := found.filterMap dirtabTake }
    match buildIndex t.rows with
    | none => (t, s)
    | some index => ({ t with index := index, state := .ready }, s)

/-! ### All tables -/

/-- The backend's table and the folder tables of the connection. -/
structure Tabs where
  db : State
  /-- `cnid_dirtabs`, empty while it is NULL -/
  tabs : List Dirtab
  /-- `cnid_dirtab_did` -/
  served : ℕ
  /-- `dirtab_clock` -/
  clock : ℕ

/-- `dirtab_of`: the place of the folder's table. -/
def dirtabOf (tabs : List Dirtab) (did : ℕ) : Option ℕ :=
  tabs.findIdx? fun t => t.state ≠ .free && t.did = did

/-- The table that makes room: a free one, or the one armed least recently. -/
def room : ℕ × Dirtab → List (Dirtab × ℕ) → ℕ
  | t, [] => t.1
  | t, u :: rest =>
    if t.2.state = .free then t.1
    else if u.1.state = .free ∨ u.1.armed < t.2.armed then room (u.2, u.1) rest
    else room t rest

/-- `cnid_dir_arm`. -/
def cnidDirArm (did : ℕ) (alloc : Bool) (s : Tabs) : Tabs :=
  if s.tabs = [] ∧ !alloc then s
  else
    let tabs := if s.tabs = [] then List.replicate dirtabs dirtabEmpty else s.tabs
    let i := (dirtabOf tabs did).getD (room (0, tabs.headD dirtabEmpty) tabs.zipIdx.tail)
    { s with
      tabs := tabs.set i { dirtabEmpty with did := did, state := .armed, armed := s.clock + 1 }
      clock := s.clock + 1 }

/-- `cnid_dir_forget`. -/
def cnidDirForget (did : ℕ) (s : Tabs) : Tabs :=
  match dirtabOf s.tabs did with
  | none => s
  | some i => { s with tabs := s.tabs.set i dirtabEmpty }

/-- `cnid_dir_serve`. -/
def cnidDirServe (did : ℕ) (s : Tabs) : Tabs := { s with served := did }

/-- `dirtab_off`. -/
def dirtabOff (s : Tabs) : Tabs :=
  { s with tabs := s.tabs.map fun t => if t.state = .ready then { t with state := .off } else t }

/-- `valide`: the CNIDs below `CNID_START` are reserved. -/
def valide (id : ℕ) : Option ℕ := if id < cnidStart then none else some id

/-- The folder's table as a call finds it: it counts the calls while it is armed, and loads. -/
def countCall (did : ℕ) (now : ℤ) (loads : Bool) (s : Tabs) : Tabs :=
  match if did = s.served then dirtabOf s.tabs did else none with
  | none => s
  | some i =>
    match s.tabs[i]? with
    | none => s
    | some t =>
      if t.state = .armed then
        let t := { t with calls := t.calls + 1 }
        if cnidDirtabMisses < t.calls then
          let (t, d) := dirtabLoad db t now loads s.db
          { s with tabs := s.tabs.set i t, db := d }
        else { s with tabs := s.tabs.set i t }
      else s

/-- The folder's table and its answer. -/
def fromTable (q : Ident) (ctime : ℤ) (hint : ℕ) (s : Tabs) : Option ℕ :=
  (if q.did = s.served then dirtabOf s.tabs q.did else none).bind fun i =>
    s.tabs[i]?.bind fun t =>
      if t.state = .ready ∧ ctime < t.loaded then
        (dirtabLookup t q).bind fun id => if hint = 0 ∨ hint = id then some id else none
      else none

/-- Where a call's answer comes from. -/
inductive Answer where
  | none
  | table (id : Option ℕ)
  | backend (r : Except Err ℕ)

/-- The arguments of `cnid_add`, with the time and the fate of a load. -/
structure AddCall where
  st : Stat
  ctime : ℤ
  did : ℕ
  name : List UInt8
  hint : ℕ
  now : ℤ
  loads : Bool

/-- `cnid_add`. -/
def cnidAdd (c : AddCall) (s : Tabs) : Answer × Tabs :=
  if c.name = [] then (.none, s)
  else
    let q := ident db c.st c.did c.name
    let s := countCall db c.did c.now c.loads s
    match fromTable q c.ctime c.hint s with
    | some id => (.table (valide id), s)
    | none =>
      let r := cnidSqliteAdd db q c.hint s.db
      (.backend (r.1.bind fun id => (valide id).elim (.error .corrupt) .ok), { s with db := r.2 })

/-- A call of the CNID interface. -/
inductive Op where
  | arm (did : ℕ) (alloc : Bool)
  | serve (did : ℕ)
  | forget (did : ℕ)
  | add (c : AddCall)
  | update (id : ℕ) (st : Stat) (did : ℕ) (name : List UInt8)
  | delete (id : ℕ)

def op (s : Tabs) : Op → Answer × Tabs
  | .arm did alloc => (.none, cnidDirArm did alloc s)
  | .serve did => (.none, cnidDirServe did s)
  | .forget did => (.none, cnidDirForget did s)
  | .add c => cnidAdd db c s
  | .update id st did name =>
    let s := dirtabOff s
    (.none, { s with db := (cnidSqliteUpdate db id (ident db st did name) s.db).2 })
  | .delete id =>
    let s := dirtabOff s
    (.none, { s with db := (cnidSqliteDelete id s.db).2 })

/-- The state after a sequence of calls. -/
def runOps (s : Tabs) (os : List Op) : Tabs := os.foldl (fun s o => (op db s o).2) s

/-- The volume opened with the backend's table `d`. -/
def opened (d : State) : Tabs := ⟨d, [], 0, 0⟩

/-! ### What a table knows -/

section tables
variable {db} {t : Dirtab} {q : Ident}

theorem probe_some {hash : UInt64} {probes s : ℕ} {row : DirRow}
    (h : probe t hash probes s = some row) : row ∈ t.rows ∧ row.hash = hash := by
  fun_induction probe t hash probes s with
  | case4 s probes r _ row' hrow hhash =>
    cases h
    exact ⟨mem_of_getElem? hrow, hhash⟩
  | case5 s probes r _ row' hrow hhash ih => exact ih h
  | _ => cases h

variable {id : ℕ} {s : Tabs}

theorem dirtabLookup_some (h : dirtabLookup t q = some id) :
    ⟨dirtabHash q.name, q.dev, q.ino, id⟩ ∈ t.rows := by
  obtain ⟨row, hrow, hid⟩ := bind_eq_some_iff.mp h
  obtain ⟨hmem, hhash⟩ := probe_some hrow
  split_ifs at hid with hfile
  cases hid
  rw [← hhash, ← hfile.1, ← hfile.2]
  exact hmem

/-- The rows of the loaded tables are rows of the database. -/
def Loaded (s : Tabs) : Prop :=
  ∀ t ∈ s.tabs, t.state = .ready → ∀ e ∈ t.rows, ∃ r ∈ s.db.rows, r.did = t.did ∧ r.entry = e

theorem Loaded.set (h : Loaded s) {i : ℕ}
    (ht : t.state = .ready → ∀ e ∈ t.rows, ∃ r ∈ s.db.rows, r.did = t.did ∧ r.entry = e) :
    Loaded { s with tabs := s.tabs.set i t } := by
  intro t' ht' hready
  obtain ht' | rfl := mem_or_eq_of_mem_set ht'
  · exact h t' ht' hready
  · exact ht hready

/-- A change of the database that keeps the rows of the loaded folders. -/
theorem Loaded.of_rows (h : Loaded s) {d : State}
    (hd : ∀ t ∈ s.tabs, t.state = .ready → ∀ r ∈ s.db.rows, r.did = t.did → r ∈ d.rows) :
    Loaded { s with db := d } := by
  intro t ht hready e he
  obtain ⟨r, hr, hdid, hentry⟩ := h t ht hready e he
  exact ⟨r, hd t ht hready r hr hdid, hdid, hentry⟩

theorem dirtabLoad_rows (t : Dirtab) (now : ℤ) (loads : Bool) (s : State) :
    (dirtabLoad db t now loads s).2 = { s with selects := s.selects + 1 } ∧
      ((dirtabLoad db t now loads s).1.state = .ready →
        ∀ e ∈ (dirtabLoad db t now loads s).1.rows,
          ∃ r ∈ s.rows, r.did = (dirtabLoad db t now loads s).1.did ∧ r.entry = e) := by
  have hfound : ∀ e ∈ (cnidSqliteDirlist db t.did cnidDirtabRows s).1.filterMap dirtabTake,
      ∃ r ∈ s.rows, r.did = t.did ∧ r.entry = e := by
    intro e he
    obtain ⟨r, hr, hrow⟩ := mem_filterMap.mp he
    have hsel := (db.perm _ _).mem_iff.mp (mem_of_mem_take hr)
    obtain ⟨hmem, hdid⟩ := mem_filter.mp hsel
    unfold dirtabTake at hrow
    split_ifs at hrow
    exact ⟨r, hmem, by simpa using hdid, some.inj hrow⟩
  unfold dirtabLoad
  simp only
  split_ifs
  · exact ⟨rfl, fun h => by cases h⟩
  · cases buildIndex ((cnidSqliteDirlist db t.did cnidDirtabRows s).1.filterMap dirtabTake) with
    | none => exact ⟨rfl, fun h => by cases h⟩
    | some => exact ⟨rfl, fun _ => hfound⟩

theorem countCall_spec (h : Loaded s) (did : ℕ) (now : ℤ) (loads : Bool) :
    Loaded (countCall db did now loads s) ∧
      ∃ n, (countCall db did now loads s).db = { s.db with selects := n } := by
  fun_cases countCall db did now loads s with
  | case3 i _ t _ _ t' _ t'' d heq =>
    obtain ⟨hdb, hrows⟩ := @dirtabLoad_rows db t' now loads s.db
    rw [heq] at hdb hrows
    refine ⟨?_, _, hdb⟩
    refine Loaded.of_rows (h.set (i := i) hrows) fun _ _ _ r hr _ => ?_
    rw [show d = _ from hdb]
    exact hr
  | case4 i _ t _ harmed t' =>
    refine ⟨h.set fun hready => ?_, s.db.selects, rfl⟩
    rw [show t'.state = t.state from rfl, harmed] at hready
    cases hready
  | _ => exact ⟨h, s.db.selects, rfl⟩

/-- A table's answer is the CNID of one of its rows with the hash, device and inode. -/
theorem fromTable_some {ctime : ℤ} {hint : ℕ} (h : Loaded s)
    (hf : fromTable q ctime hint s = some id) :
    ∃ r ∈ s.db.rows, r.did = q.did ∧ dirtabHash r.name = dirtabHash q.name ∧ r.dev = q.dev ∧
      r.ino = q.ino ∧ r.id = id := by
  obtain ⟨i, hi, hat⟩ := bind_eq_some_iff.mp hf
  obtain ⟨t, ht, hans⟩ := bind_eq_some_iff.mp hat
  split_ifs at hans with hready
  obtain ⟨id', hid, hhint⟩ := bind_eq_some_iff.mp hans
  split_ifs at hhint
  cases hhint
  split_ifs at hi
  obtain ⟨hlt, hdid, -⟩ := findIdx?_eq_some_iff_getElem.mp hi
  obtain ⟨hlt', rfl⟩ := List.getElem?_eq_some_iff.mp ht
  simp only [Bool.and_eq_true, decide_eq_true_eq] at hdid
  obtain ⟨r, hr, hrdid, hentry⟩ :=
    h _ (getElem_mem hlt) hready.1 _ (dirtabLookup_some hid)
  simp only [Row.entry, DirRow.mk.injEq] at hentry
  exact ⟨r, hr, hrdid.trans hdid.2, hentry⟩

/-- An add of the backend keeps a row that shares neither its name nor its file, and its own. -/
theorem mem_cnidSqliteAdd {s : State} (h : Wf db.maxpathlen s) (hq : q.Valid db.maxpathlen)
    (hseq : s.seq + 1 < uint32Max) (hint : ℕ) {r : Row} (hr : r ∈ s.rows)
    (hown : q.shares r = true → r.toIdent = q) : r ∈ (cnidSqliteAdd db q hint s).2.rows := by
  have hok := add_spec h hq hint
  by_cases hs : q.shares r = true
  · have hrow : ⟨q, r.id⟩ ∈ s.rows := by
      rw [← hown hs]
      exact hr
    have hret := add_of_mem h hq hrow hint
    rw [hret] at hok
    cases hok with
    | added =>
      have hr' : r = ⟨q, r.id⟩ := by rw [← hown hs]
      rwa [hr']
  · generalize cnidSqliteAdd db q hint s = res at hok ⊢
    obtain ⟨ret, s'⟩ := res
    cases hok with
    | added _ _ hk => exact (hk.mem_iff (by simpa using hs)).mpr hr
    | reset hmax _ => omega

end tables

/-! ### Runs -/

/-- The arguments of a call are valid, as far as the backend reads them. -/
def Op.Valid : Op → Prop
  | .add c => c.name = [] ∨ Call.Valid db (.add c.st c.did c.name c.hint)
  | .update id st did name => Call.Valid db (.update id st did name)
  | .delete id => Call.Valid db (.delete id)
  | _ => True

/-- A CNID that the call answers from a table is the CNID of a row with exactly the object's
parent, name, device and inode. -/
def Exact (s : Tabs) : Op → Prop
  | .add c => ∀ id, (cnidAdd db c s).1 = .table (some id) →
      ⟨ident db c.st c.did c.name, id⟩ ∈ (cnidAdd db c s).2.db.rows
  | _ => True

/-- The call does not take a row from a loaded table, and asks a table for a name that no other
name of the folder has the hash of. -/
def Undisturbed (s : Tabs) : Op → Prop
  | .add c =>
    let q := ident db c.st c.did c.name
    let s := countCall db c.did c.now c.loads s
    (fromTable q c.ctime c.hint s ≠ none → ∀ r ∈ s.db.rows, r.did = c.did →
      dirtabHash r.name = dirtabHash c.name → r.name = c.name) ∧
    (fromTable q c.ctime c.hint s = none → ∀ t ∈ s.tabs, t.state = .ready →
      s.db.seq + 1 < uint32Max ∧
        ∀ r ∈ s.db.rows, r.did = t.did → q.shares r = true → r.toIdent = q)
  | _ => True

instance (s : Tabs) : (o : Op) → Decidable (Undisturbed db s o)
  | .add _ => inferInstanceAs (Decidable (_ ∧ _))
  | .arm _ _ | .serve _ | .forget _ | .update _ _ _ _ | .delete _ => isTrue trivial

/-- A condition on the calls of a run, each in the state it finds. -/
def Along (P : Tabs → Op → Prop) : Tabs → List Op → Prop
  | _, [] => True
  | s, o :: os => P s o ∧ Along P (op db s o).2 os

instance Along.decidable (P : Tabs → Op → Prop) [∀ s o, Decidable (P s o)] :
    (s : Tabs) → (os : List Op) → Decidable (Along db P s os)
  | _, [] => isTrue trivial
  | s, o :: os =>
    have := Along.decidable P (op db s o).2 os
    inferInstanceAs (Decidable (_ ∧ _))

section runs
variable {db} {s : Tabs}

theorem exact_of_undisturbed (hl : Loaded s) {o : Op} (hu : Undisturbed db s o) : Exact db s o := by
  cases o with
  | add c =>
    intro id hid
    have hload := (@countCall_spec db s hl c.did c.now c.loads).1
    unfold cnidAdd at hid ⊢
    split_ifs at hid ⊢ with hname
    simp only at hid ⊢
    cases hf : fromTable (ident db c.st c.did c.name) c.ctime c.hint
        (countCall db c.did c.now c.loads s) with
    | none =>
      rw [hf] at hid
      cases hid
    | some =>
      rw [hf] at hid
      simp only [Answer.table.injEq, valide] at hid
      split_ifs at hid
      cases hid
      obtain ⟨r, hr, hdid, hhash, hdev, hino, rfl⟩ := fromTable_some hload hf
      have hrname := hu.1 (by simp [hf]) r hr hdid hhash
      have hrow : r = ⟨ident db c.st c.did c.name, r.id⟩ := by
        obtain ⟨⟨did, name, dev, ino⟩, id⟩ := r
        simp only at hdid hrname hdev hino
        simp only [ident] at hdid hdev hino ⊢
        rw [hdid, hrname, hdev, hino]
      rw [← hrow]
      exact hr
  | arm | serve | forget | update | delete => trivial

theorem loaded_dirtabOff (s : Tabs) (d : State) : Loaded { dirtabOff s with db := d } := by
  intro t ht hready
  obtain ⟨u, -, rfl⟩ := List.mem_map.mp ht
  split_ifs at hready with hu
  exact absurd hready hu

theorem Loaded.cnidDirArm (hl : Loaded s) (did : ℕ) (alloc : Bool) :
    Loaded (cnidDirArm did alloc s) := by
  by_cases hnull : s.tabs = [] ∧ !alloc
  · rw [Cnid.cnidDirArm, if_pos hnull]
    exact hl
  · rw [Cnid.cnidDirArm, if_neg hnull]
    intro t ht hready
    obtain ht | rfl := mem_or_eq_of_mem_set ht
    · by_cases hnil : s.tabs = []
      · rw [if_pos hnil] at ht
        rw [eq_of_mem_replicate ht] at hready
        cases hready
      · rw [if_neg hnil] at ht
        exact hl t ht hready
    · cases hready

theorem Loaded.cnidDirForget (hl : Loaded s) (did : ℕ) : Loaded (cnidDirForget did s) := by
  unfold Cnid.cnidDirForget
  split
  · exact hl
  · exact hl.set fun hready => by cases hready

section
variable (hl : Loaded s) (hwf : Wf db.maxpathlen s.db)
include hl hwf

/-- An undisturbed call keeps the rows of the loaded tables in the database. -/
theorem Loaded.cnidAdd {c : AddCall} (hv : Op.Valid db (.add c)) (hu : Undisturbed db s (.add c)) :
    Loaded (cnidAdd db c s).2 ∧ Wf db.maxpathlen (cnidAdd db c s).2.db := by
  obtain ⟨hload, n, hdb⟩ := @countCall_spec db s hl c.did c.now c.loads
  have hwf' : Wf db.maxpathlen (countCall db c.did c.now c.loads s).db := by
    rw [hdb]
    exact { hwf with }
  unfold Cnid.cnidAdd
  split_ifs with hname
  · exact ⟨hl, hwf⟩
  · have hcall := hv.resolve_left hname
    simp only
    cases hf : fromTable (ident db c.st c.did c.name) c.ctime c.hint
        (countCall db c.did c.now c.loads s) with
    | some => exact ⟨hload, hwf'⟩
    | none =>
      refine ⟨hload.of_rows fun t ht hready r hr hdid => ?_, hwf'.call hcall⟩
      obtain ⟨hseq, hown⟩ := hu.2 hf t ht hready
      exact mem_cnidSqliteAdd hwf' hcall.1 hseq c.hint hr (hown r hr hdid)

theorem Loaded.op {o : Op} (hv : o.Valid db) (hu : Undisturbed db s o) :
    Loaded (op db s o).2 ∧ Wf db.maxpathlen (Cnid.op db s o).2.db := by
  cases o with
  | add => exact hl.cnidAdd hwf hv hu
  | arm did alloc =>
    refine ⟨hl.cnidDirArm did alloc, ?_⟩
    simp only [Cnid.op, Cnid.cnidDirArm]
    split_ifs <;> exact hwf
  | serve => exact ⟨hl, hwf⟩
  | forget did =>
    refine ⟨hl.cnidDirForget did, ?_⟩
    simp only [Cnid.op, Cnid.cnidDirForget]
    split <;> exact hwf
  | update id st did name => exact ⟨loaded_dirtabOff s _, hwf.call (c := .update id st did name) hv⟩
  | delete id => exact ⟨loaded_dirtabOff s _, hwf.call (c := .delete id) hv⟩

theorem along_exact {os : List Op} (hv : ∀ o ∈ os, o.Valid db) (hu : Along db (Undisturbed db) s os)
    : Along db (Exact db) s os := by
  induction os generalizing s with
  | nil => trivial
  | cons o os ih =>
    rw [forall_mem_cons] at hv
    obtain ⟨hl', hwf'⟩ := hl.op hwf hv.1 hu.1
    exact ⟨exact_of_undisturbed hl hu.1, ih hl' hwf' hv.2 hu.2⟩

end

end runs

/-- In a run of calls on a volume, every CNID that a folder table answers is that of a row with
exactly the object's identity, as long as no add of the backend takes the name or file of a row of
a loaded folder, and no name has the hash of another one of its folder. -/
theorem table_exact (d : State) (hd : Wf db.maxpathlen d) (os : List Op) (hv : ∀ o ∈ os, o.Valid db)
    (hu : Along db (Undisturbed db) (opened d) os) : Along db (Exact db) (opened d) os :=
  along_exact (fun t ht => by cases ht) hd hv hu

/-- A file in a folder that is listed: the seventeenth call loads the table, and the next one is
answered by it. -/
theorem table_exact_listed : fromTable ⟨2, [97], 1, 5⟩ 0 0
      (runOps plainDb (opened ⟨[⟨⟨2, [97], 1, 5⟩, 17⟩], 17, 0, false, 0⟩)
        ([.arm 2 true, .serve 2] ++ List.replicate 17 (.add ⟨⟨1, 5⟩, 0, 2, [97], 0, 10, true⟩))) =
      some 17 ∧
    Along plainDb (Exact plainDb) (opened ⟨[⟨⟨2, [97], 1, 5⟩, 17⟩], 17, 0, false, 0⟩)
      ([.arm 2 true, .serve 2] ++ List.replicate 18 (.add ⟨⟨1, 5⟩, 0, 2, [97], 0, 10, true⟩)) := by
  have hvalid : Ident.Valid plainDb.maxpathlen ⟨2, [97], 1, 5⟩ :=
    valid_plainDb ⟨1, 5⟩ 97 (by decide) (by decide)
  refine ⟨by decide +kernel, table_exact plainDb _ ?_ _ ?_ (by decide +kernel)⟩
  · refine ⟨pairwise_singleton _ _, fun r hr => ?_⟩
    obtain rfl := mem_singleton.mp hr
    exact ⟨hvalid, by decide, by decide, by decide⟩
  · intro o ho
    rcases mem_append.mp ho with ho | ho
    · simp only [mem_cons, not_mem_nil, or_false] at ho
      rcases ho with rfl | rfl
      · trivial
      · trivial
    · rw [eq_of_mem_replicate ho]
      exact .inr ⟨hvalid, by decide⟩

/-- The file has a second name `b`.  Its row is loaded under the name `a`, the backend's add of `b`
takes it away, and the table still answers `a` with its CNID. -/
theorem table_inexact_hard_link :
    let s := runOps plainDb (opened ⟨[⟨⟨2, [97], 1, 5⟩, 17⟩], 17, 0, false, 0⟩)
      ([.arm 2 true, .serve 2] ++ replicate 17 (.add ⟨⟨1, 5⟩, 0, 2, [97], 0, 10, true⟩) ++
        [.add ⟨⟨1, 5⟩, 0, 2, [98], 0, 10, true⟩])
    (cnidAdd plainDb ⟨⟨1, 5⟩, 0, 2, [97], 0, 10, true⟩ s).1 = .table (some 17) ∧
      (cnidAdd plainDb ⟨⟨1, 5⟩, 0, 2, [97], 0, 10, true⟩ s).2.db.rows =
        [⟨⟨2, [98], 1, 5⟩, 18⟩] ∧
      ¬Exact plainDb s (.add ⟨⟨1, 5⟩, 0, 2, [97], 0, 10, true⟩) := by
  intro s
  have htable : fromTable (ident plainDb ⟨1, 5⟩ 2 [97]) 0 0 (countCall plainDb 2 10 true s) =
      some 17 := by decide +kernel
  have hanswer : (cnidAdd plainDb ⟨⟨1, 5⟩, 0, 2, [97], 0, 10, true⟩ s).1 = .table (some 17) := by
    rw [cnidAdd]
    simp only [htable]
    rfl
  have hrows : (cnidAdd plainDb ⟨⟨1, 5⟩, 0, 2, [97], 0, 10, true⟩ s).2.db.rows =
      [⟨⟨2, [98], 1, 5⟩, 18⟩] := by decide +kernel
  refine ⟨hanswer, hrows, fun hexact => ?_⟩
  have hmem := hexact 17 hanswer
  rw [hrows] at hmem
  exact absurd hmem (by decide)

end Netatalk.Cnid
