import Netatalk.Bytes

/-! # AFP path names

The model of `cname` (`etc/afpd/directory.c`), which resolves the path of a request.  A path starts
from a directory and holds names and NULs: the first NUL of a run separates, and each further one
moves to the parent.

* **The volume.**  `Volume` holds what the functions that `cname` calls answer: `of_stat` and the
  two ways to a dircache entry for a name in a directory, `dirlookup` for a DID, and `movecwd`.  A
  failing call gives the `afp_errno` that it leaves.
* **Names.**  `mtouname` is `cname_mtouname`, from the name of the client to the client's view of
  the name and the name on disk; `checkName` says that `check_name` accepts.  `mtoupath` of the
  empty name is `"."`.
* **The working directory.**  `visited` are the directories that were made current, the last one
  in front. -/

namespace Netatalk.Cname

open Bytes

abbrev Name := List UInt8

/-- The codes that `afp_errno` gets here. -/
inductive AfpErr where
  | param
  | noobj
  | nodir
  | did1
  | access
  | misc
deriving DecidableEq, Repr

/-- `st_mode & S_IFMT`. -/
inductive FileType where
  | reg
  | lnk
  | dir
  | special
deriving DecidableEq, Repr

/-- A DID; `DIRDID_ROOT_PARENT` is 1 and `DIRDID_ROOT` is 2. -/
abbrev Did := ℕ

def dirdidRootParent : Did := 1
def dirdidRoot : Did := 2

/-- `UTF8FILELEN_EARLY`. -/
def utf8filelenEarly : ℕ := 255

/-- What `cname` gets from the volume and the functions it calls. -/
structure Volume where
  afpVersion : ℕ
  ofStat : Did → Name → Option FileType
  dircacheSearch : Did → Name → Option Did
  dirAdd : Did → Name → Except AfpErr Did
  pdid : Did → Did
  dirlookup : Did → Except AfpErr Did
  movecwd : Did → Except AfpErr Unit
  mName : Did → Name
  uName : Did → Name
  mtouname : Bool → Did → Name → Option (Name × Name)
  checkName : Name → Bool
  -- the name of a client does not become empty
  mtouname_ne_nil : ∀ {toUTF8 did name m u}, mtouname toUTF8 did name = some (m, u) → name ≠ [] →
    m ≠ []

/-- `struct path`, without the stat. -/
structure Path where
  mType : ℕ
  mName : Name
  uName : Name
  dDir : Option Did
deriving DecidableEq, Repr

/-- The variables of the walk: `dir`, which is `curdir`, the names in `ret`, and the directories
made current. -/
structure Walk where
  dir : Did
  mName : Name
  uName : Name
  visited : List Did
deriving DecidableEq, Repr

/-- `curdir` is a directory. -/
def Walk.enter (w : Walk) (did : Did) : Walk := { w with dir := did, visited := did :: w.visited }

/-- A return in the middle: NULL with `afp_errno`, or a path. -/
inductive Stop where
  | null (err : AfpErr)
  | path (p : Path)
deriving DecidableEq, Repr

section
variable (vol : Volume)

/-- `path_from_dir`, with the `afp_errno` that `movecwd` left. -/
def pathFromDir (mType : ℕ) (did : Did) (err : AfpErr) (w : Walk) : Stop × Walk :=
  if did = dirdidRootParent ∨ did = dirdidRoot then (.null err, w)
  else
    let path := fun dDir => Stop.path ⟨mType, vol.mName did, vol.uName did, dDir⟩
    match err with
    | .access | .noobj =>
      match vol.dirlookup (vol.pdid did) with
      | .error e => (.null e, w)
      | .ok parent =>
        match vol.movecwd parent with
        | .error e => (.null e, w)
        | .ok () => (path (if err = .access then some did else none), w.enter parent)
    | _ => (.null err, w)

/-- The inner loop: each further NUL of a run moves to the parent. -/
def walkUp : List UInt8 → Walk → Except Stop (List UInt8) × Walk
  | [], w => (.ok [], w)
  | b :: data, w =>
    if b = 0 then
      if w.dir = dirdidRoot then (.error (.null .param), w)
      else
        match vol.dirlookup (vol.pdid w.dir) with
        | .error e => (.error (.null e), w)
        | .ok did =>
          match vol.movecwd did with
          | .error e => (.error (.null e), w)
          | .ok () => walkUp data (w.enter did)
    else (.ok (b :: data), w)

/-- Step 8 to 15: the directory that a name stands for, or none for a name that ends the path. -/
def lookupName (m u : Name) (last : Bool) (dir : Did) : Except Stop (Option Did) :=
  if dir = dirdidRootParent then
    -- the only child of the root's parent is the volume
    if vol.mName dirdidRoot = m then .ok (some dirdidRoot) else .error (.null .noobj)
  else
    match vol.ofStat dir u with
    | none => if last then .ok none else .error (.null .noobj)
    | some .reg => if last then .ok none else .error (.null .param)
    | some .lnk => if last then .ok none else .error (.null .param)
    | some .special => .error (.null .nodir)
    | some .dir =>
      match vol.dircacheSearch dir u with
      | some did => .ok (some did)
      | none =>
        match vol.dirAdd dir u with
        | .ok did => .ok (some did)
        | .error e => .error (.null e)

/-- Step 6 to 17: one name of the path, with the bytes behind it. -/
def walkName (mType : ℕ) (toUTF8 : Bool) (name rest : List UInt8) (w : Walk) :
    Except Stop Unit × Walk :=
  if utf8filelenEarly < name.length then (.error (.null .param), w)
  else
    match vol.mtouname toUTF8 w.dir name with
    | none => (.error (.null .param), w)
    | some (m, u) =>
      let w := { w with mName := m, uName := u }
      if w.dir ≠ dirdidRootParent ∧ vol.checkName u = false then (.error (.null .param), w)
      else
        match lookupName vol m u rest.isEmpty w.dir with
        | .error stop => (.error stop, w)
        | .ok none => (.ok (), w)
        | .ok (some did) =>
          match vol.movecwd did with
          | .error e =>
            if rest.isEmpty then
              let (stop, w) := pathFromDir vol mType did e w
              (.error stop, w)
            else (.error (.null e), w)
          -- the last element is a directory so far
          | .ok () => (.ok (), { w.enter did with mName := [] })

/-- The loop over the path.  Every turn takes at least a byte, so the length bounds the turns. -/
def walk (mType : ℕ) (toUTF8 : Bool) : ℕ → List UInt8 → Walk → Option Stop × Walk
  | 0, _, w => (none, w)
  | _ + 1, [], w => (none, w)
  | n + 1, b :: data, w =>
    if b = 0 then
      match walkUp vol data w with
      | (.error stop, w) => (some stop, w)
      | (.ok data, w) => walk mType toUTF8 n data w
    else
      let name := (b :: data).takeWhile (· ≠ 0)
      let rest := (b :: data).dropWhile (· ≠ 0)
      match walkName vol mType toUTF8 name rest w with
      | (.error stop, w) => (some stop, w)
      | (.ok (), w) => walk mType toUTF8 n rest w

/-- The end of `cname`, after the walk. -/
def finish (mType : ℕ) (w : Walk) : Except AfpErr Path :=
  if w.dir = dirdidRootParent then .error .did1
  -- the name stays empty when the path is, so this is also the case of an empty path
  else if w.mName = [] then .ok ⟨mType, [], [46], some w.dir⟩
  else .ok ⟨mType, w.mName, w.uName, none⟩

/-- `cname` without the header of the path. -/
def cnamePath (mType : ℕ) (toUTF8 : Bool) (dir : Did) (path : List UInt8) :
    Except AfpErr Path × List Did :=
  match vol.movecwd dir with
  | .error e =>
    if path = [] then
      match pathFromDir vol mType dir e ⟨dir, [], [], []⟩ with
      | (.null err, w) => (.error err, w.visited)
      | (.path p, w) => (.ok p, w.visited)
    else (.error e, [])
  | .ok () =>
    match walk vol mType toUTF8 path.length path (Walk.enter ⟨dir, [], [], []⟩ dir) with
    | (some (.null err), w) => (.error err, w.visited)
    | (some (.path p), w) => (.ok p, w.visited)
    | (none, w) => (finish mType w, w.visited)

/-- `cname` from the request at the cursor: how far the cursor moves, the path, and the directories
made current. -/
def cname (dir : Did) (data : List UInt8) : ℕ × Except AfpErr Path × List Did :=
  match data.getD 0 0 with
  | 2 =>
    let len := (data.getD 1 0).toNat
    let path := (data.drop 2).take len
    if 30 ≤ vol.afpVersion then (len + 2, cnamePath vol 3 true dir path)
    else (len + 2, cnamePath vol 2 false dir path)
  | 3 =>
    if 30 ≤ vol.afpVersion then
      -- a type, a text encoding hint, and the length
      let len := beNat ((data.drop 5).take 2)
      (len + 7, cnamePath vol 3 false dir ((data.drop 7).take len))
    else (0, .error .param, [])
  | _ => (0, .error .param, [])

end

end Netatalk.Cname
