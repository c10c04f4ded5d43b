import Mathlib
import Netatalk.UniqueRows

/-! # The CNID table of a volume in SQLite

The model of `cnid_sqlite_lookup`, `cnid_sqlite_add`, `cnid_sqlite_update` and
`cnid_sqlite_delete` of `libatalk/cnid/cnid_sqlite.c`.

* **SQLite.**  A volume's table is the list of its rows.  The rowid, the pair of parent and name
  and the pair of device and inode are unique: a statement that would break one of them fails with
  `SQLITE_CONSTRAINT` and changes nothing.  `seq` is the largest rowid that the table ever held,
  and an automatic rowid is the next number.  No other query fails.
* **Order.**  A `SELECT` without `ORDER BY` returns its rows in an order of its own: `Sqlite.order`
  is one, which may be another at each query, and `selects` counts the queries.
* **CNIDs.**  Numbers are in host order, and `CNID_INVALID` is 0. -/

namespace Netatalk.Cnid

/-- `CNID_START`. -/
def cnidStart : ℕ := 17

/-- `UINT32_MAX`. -/
def uint32Max : ℕ := 2 ^ 32 - 1

/-- `CNID_SQLITE_MAX_HINT`. -/
def cnidSqliteMaxHint : ℕ := uint32Max - 2 ^ 28

/-- `CNID_SQLITE_ADD_ATTEMPTS`. -/
def cnidSqliteAddAttempts : ℕ := 16

/-- What a row says about an object: its parent, name, device and inode. -/
structure Ident where
  did : ℕ
  name : List UInt8
  dev : ℕ
  ino : ℕ
deriving DecidableEq, Repr

/-- A row of the volume's table. -/
structure Row extends Ident where
  id : ℕ
deriving DecidableEq, Repr

/-- `st_dev` and `st_ino`. -/
structure Stat where
  dev : ℕ
  ino : ℕ
deriving DecidableEq, Repr

/-- The classes of errors. -/
inductive Err where
  | param
  | path
  | notFound
  | corrupt
  | reset
  | sql
deriving DecidableEq, Repr

/-- The database: the order of its answers, and the build and volume settings. -/
structure Sqlite where
  order : ℕ → List Row → List Row
  perm : ∀ n rows, (order n rows).Perm rows
  /-- `MAXPATHLEN` -/
  maxpathlen : ℕ
  /-- `CNID_FLAG_NODEV` -/
  nodev : Bool

/-- The volume's table and the private data of the connection. -/
structure State where
  rows : List Row
  seq : ℕ
  /-- `cnid_sqlite_hint` -/
  hint : ℕ
  /-- `CNID_SQLITE_FLAG_DEPLETED` -/
  depleted : Bool
  selects : ℕ

/-- An empty table; `cnid_sqlite_seed_sequence` has reserved the numbers below `CNID_START`. -/
def init : State := ⟨[], cnidStart - 1, 0, false, 0⟩

variable (db : Sqlite)

/-- The identity of an object: without device numbers for a volume that ignores them. -/
def ident (st : Stat) (did : ℕ) (name : List UInt8) : Ident :=
  ⟨did, name, if db.nodev then 0 else st.dev, st.ino⟩

/-! ### Statements -/

/-- The row has the parent and name. -/
def Ident.sameName (q : Ident) (r : Row) : Bool := r.name = q.name && r.did = q.did

/-- The row has the device and inode. -/
def Ident.sameFile (q : Ident) (r : Row) : Bool := r.dev = q.dev && r.ino = q.ino

/-- The row shares a unique pair with the identity. -/
def Ident.shares (q : Ident) (r : Row) : Bool := q.sameName r || q.sameFile r

/-- `cnid_lookup_stmt`. -/
def selectLookup (q : Ident) (s : State) : List Row × State :=
  (db.order s.selects (s.rows.filter q.shares), { s with selects := s.selects + 1 })

/-- `cnid_put_stmt`: insert a row with its rowid. -/
def putRow (id : ℕ) (q : Ident) (s : State) : Option State :=
  if s.rows.any fun r => r.id = id || q.shares r then none
  else some { s with rows := s.rows ++ [⟨q, id⟩], seq := max s.seq id }

/-- `cnid_add_stmt`: insert a row with an automatic rowid. -/
def addRow (q : Ident) (s : State) : Option State := putRow (s.seq + 1) q s

/-- `cnid_delete_stmt`. -/
def deleteId (id : ℕ) (s : State) : State := { s with rows := s.rows.filter fun r => r.id ≠ id }

/-- `cnid_update_stmt`: none for a constraint, and whether a row changed. -/
def updateRow (id : ℕ) (q : Ident) (s : State) : Option (Bool × State) :=
  if s.rows.any fun r => r.id = id then
    if s.rows.any fun r => r.id ≠ id && q.shares r then none
    else some (true, { s with rows := s.rows.map fun r => if r.id = id then ⟨q, id⟩ else r })
  else some (false, s)

/-- `cnid_del_didname_stmt` and `cnid_del_devino_stmt`. -/
def deleteShares (q : Ident) (s : State) : State :=
  let s := { s with rows := s.rows.filter fun r => !q.sameName r }
  { s with rows := s.rows.filter fun r => !q.sameFile r }

/-! ### The calls -/

/-- `cnid_sqlite_rowid_ok`. -/
def cnidSqliteRowidOk (rowid : ℕ) : Bool := rowid ≠ 0 && rowid ≤ uint32Max

/-- `cnid_sqlite_hint_usable`. -/
def cnidSqliteHintUsable (hint : ℕ) : Bool := cnidStart ≤ hint && hint ≤ cnidSqliteMaxHint

/-- `cnid_sqlite_delete`. -/
def cnidSqliteDelete (id : ℕ) (s : State) : Except Err Unit × State :=
  if id = 0 then (.error .param, s) else (.ok (), deleteId id s)

/-- One attempt of `cnid_sqlite_update`: rewrite the row of the CNID, or insert it. -/
def tryUpdate (id : ℕ) (q : Ident) (s : State) : Option State :=
  match updateRow id q s with
  | none => none
  | some (true, s) => some s
  | some (false, s) => putRow id q s

/-- `cnid_sqlite_update`: the second attempt clears the colliding rows first, and is rolled back
when it fails. -/
def cnidSqliteUpdate (id : ℕ) (q : Ident) (s : State) : Except Err Unit × State :=
  if id = 0 then (.error .param, s)
  else if db.maxpathlen < q.name.length then (.error .path, s)
  else
    match tryUpdate id q s with
    | some s => (.ok (), s)
    | none =>
      match tryUpdate id q (deleteShares q s) with
      | some s => (.ok (), s)
      | none => (.error .sql, s)

/-- The deletion of surplus rows; the flag tells that a rowid was out of range. -/
def deleteExtra : List Row → State → Bool × State
  | [], s => (false, s)
  | r :: extra, s =>
    if cnidSqliteRowidOk r.id then deleteExtra extra (deleteId r.id s)
    else (true, (deleteExtra extra s).2)

/-- The name of a row as it is copied into a buffer of `MAXPATHLEN` bytes. -/
def lookupName (r : Row) : List UInt8 := r.name.take (db.maxpathlen - 1)

/-- `cnid_sqlite_lookup` on the one row that its query returned. -/
def lookupRow (q : Ident) (r : Row) (s : State) : Except Err ℕ × State :=
  if !cnidSqliteRowidOk r.id || !cnidSqliteRowidOk r.did then (.error .corrupt, s)
  else if r.did ≠ q.did ∨ lookupName db r ≠ q.name then
    -- moved on the server, or a reused inode
    if s.hint ≠ r.id then (.error .notFound, deleteId r.id s)
    else
      match cnidSqliteUpdate db r.id q s with
      | (.ok _, s) => (.ok r.id, s)
      | (.error e, s) => (.error e, s)
  else if r.dev ≠ q.dev ∨ r.ino ≠ q.ino then (.error .notFound, deleteId r.id s)
  else (.ok r.id, s)

/-- `cnid_sqlite_lookup`. -/
def cnidSqliteLookup (q : Ident) (s : State) : Except Err ℕ × State :=
  if db.maxpathlen < q.name.length then (.error .path, s)
  else if q.did < 2 then (.error .param, s)
  else
    match selectLookup db q s with
    | ([], s) => (.error .notFound, s)
    | ([r], s) => lookupRow db q r s
    | (_ :: extra, s) =>
      -- the buffer for the surplus rows holds two
      let (bad, s) := deleteExtra (extra.take 2) s
      (.error (if bad then .corrupt else .notFound), s)

/-- The insertion of `cnid_sqlite_add`: the rowid and the table, or a constraint. -/
def insertIdent (insertable : Bool) (q : Ident) (s : State) : Option (ℕ × State) :=
  if !insertable || s.depleted then (addRow q s).map fun s' => (s.seq + 1, s')
  else (putRow s.hint q s).map fun s' => (s.hint, s')

/-- The end of `cnid_sqlite_add` for a row it inserted: the last CNID empties the table. -/
def finishAdd (lastid : ℕ) (s : State) : Except Err ℕ × State :=
  if uint32Max ≤ lastid then
    (.error .reset, { s with rows := [], seq := cnidStart - 1, depleted := true })
  else if lastid = 0 then (.error .corrupt, s)
  else (.ok lastid, s)

/-- The loop of `cnid_sqlite_add`, with the attempts left and whether the hint may be inserted. -/
def addLoop (q : Ident) : ℕ → Bool → State → Except Err ℕ × State
  | 0, _, s => (.error .corrupt, s)
  | attempts + 1, insertable, s =>
    match cnidSqliteLookup db q s with
    | (.ok id, s) => (.ok id, s)
    | (.error .notFound, s) =>
      if q.name = [] ∨ q.did = 0 ∨ q.ino = 0 then (.error .param, s)
      else
        match insertIdent insertable q s with
        | some (lastid, s) => finishAdd lastid s
        | none => addLoop q attempts false { s with hint := 0 }
    | (.error e, s) => (.error e, s)

/-- `cnid_sqlite_add`. -/
def cnidSqliteAdd (q : Ident) (hint : ℕ) (s : State) : Except Err ℕ × State :=
  if db.maxpathlen < q.name.length then (.error .path, { s with hint := 0 })
  else
    let insertable := hint ≠ 0 && cnidSqliteHintUsable hint
    let (ret, s) := addLoop db q cnidSqliteAddAttempts insertable { s with hint := hint }
    -- the hint spans only this call
    (ret, { s with hint := 0 })

/-- A call of the backend, with the arguments of the C function. -/
inductive Call where
  | add (st : Stat) (did : ℕ) (name : List UInt8) (hint : ℕ)
  | lookup (st : Stat) (did : ℕ) (name : List UInt8)
  | update (id : ℕ) (st : Stat) (did : ℕ) (name : List UInt8)
  | delete (id : ℕ)
deriving DecidableEq, Repr

/-- The table after a call. -/
def call : Call → State → State
  | .add st did name hint, s => (cnidSqliteAdd db (ident db st did name) hint s).2
  | .lookup st did name, s => (cnidSqliteLookup db (ident db st did name) s).2
  | .update id st did name, s => (cnidSqliteUpdate db id (ident db st did name) s).2
  | .delete id, s => (cnidSqliteDelete id s).2

/-- The table after a sequence of calls. -/
def run (cs : List Call) (s : State) : State := cs.foldl (fun s c => call db c s) s

end Netatalk.Cnid
