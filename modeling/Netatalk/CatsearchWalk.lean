import Netatalk.CatsearchDb

/-! # The tree walk of FPCatSearch

The model of `catsearch` (`etc/afpd/catsearch.c`), with `clearstack`, `addstack` and `reducestack`.
The walk keeps a stack of folders instead of recursing.  The stack, the open directory stream
`dirpos`, the position `cur_pos` and the index `save_cidx` of the folder a pause fell into are
statics, so they stay from call to call; `Walk` holds them.

The tree does not change while it is searched.  A DID then stands for one folder, and a stack item
holds the folder with its path instead of the DID.  An entry is found by its name in the folder the
process stands in, which is not always the folder the stream was opened on: the names of a stream
are looked up wherever `movecwd` last went. -/

namespace Netatalk.CatsearchWalk

open Netatalk.Catsearch

/-! ### Trees -/

/-- What the criteria and the record of an object come to. -/
structure Attr where
  critCheck : ℤ
  /-- the length `getdirparams` or `getfilparams` returns, unless it fails -/
  params : Option ℕ
deriving DecidableEq

/-- `errno` of a failed `chdir` or `opendir`, as far as the walk tells them apart: `EMFILE`,
`ENFILE` and `ENOENT` are one. -/
inductive Errno where
  | eacces
  | nfile
  | other
deriving DecidableEq, Repr

/-- Whether a folder can be entered and whether its names can be read. -/
structure Access where
  chdir : Option Errno
  opendir : Option Errno
deriving DecidableEq

/-- What becomes of the folder's dircache entry: it takes the stat, it could not, or there is none
and `dir_add_fill` fails to make one. -/
inductive CacheEntry where
  | takes
  | refuses
  | fails
deriving DecidableEq

/-- An object of the tree, or a name whose `of_stat` fails.  A folder lists its names in the order
of `readdir`. -/
inductive Node (N : Type) where
  | file (a : Attr)
  | folder (a : Attr) (c : CacheEntry) (acc : Access) (entries : List (N × Node N))
  | other
  | unstat (e : StatErrno)

/-- The request and the volume: the shape of the records and the names `check_dirent` lets pass. -/
structure Env (N : Type) where
  ext : Bool
  checkDirent : N → Bool

variable {N : Type}

/-- The criteria and, for an object that meets them, the record. -/
def Attr.check (ext : Bool) (a : Attr) : Visit :=
  if a.critCheck < 0 then .fail
  else if a.critCheck % 2 = 1 then
    match a.params with
    | none => .fail
    | some tbuf => .hit (rsltAdd ext tbuf)
  else .next

/-! ### The stack -/

/-- A folder on the stack. -/
structure Item (N : Type) where
  path : List N
  access : Access
  entries : List (N × Node N)
  checked : Bool

/-- The statics of the walk; `dirpos` is what the open stream has still to return. -/
structure Walk (N : Type) where
  curPos : ℕ
  dirpos : Option (List N)
  saveCidx : Option ℕ
  dstack : List (Item N)

/-- The folder an item is pushed for. -/
def Item.fresh (path : List N) (acc : Access) (entries : List (N × Node N)) : Item N :=
  ⟨path, acc, entries, false⟩

def Item.check (i : Item N) : Item N := { i with checked := true }

/-- `reducestack`: the index of the folder to go on with. -/
def reducestack (w : Walk N) : Option ℕ × Walk N :=
  match w.saveCidx with
  | some r => (some r, { w with saveCidx := none })
  | none =>
    let ds := w.dstack.rdropWhile Item.checked
    (if ds.isEmpty then none else some (ds.length - 1), { w with dstack := ds })

/-! ### The loop over the names -/

/-- What one call keeps: the position, the matches it may still return, the rounds to the next look
at the clock, how often it has looked, and the reply. -/
structure Local (N : Type) where
  pos : ℕ
  rmatches : ℤ
  numRounds : ℤ
  looks : ℕ
  out : Reply (List N)

/-- What a call is asked for, and what the system answers it. -/
structure Args (N : Type) where
  rmatches : ℤ
  /-- at which of its looks the clock has left the second it started in -/
  late : ℕ → Bool
  /-- `open(".")` succeeds -/
  opensCwd : Bool
  /-- `dirlookup` finds the folder at a path -/
  dirlookup : List N → Bool
  /-- `addstack` has memory for the folder at a path -/
  addstack : List N → Bool

/-- None of the answers fails the call. -/
structure Args.Served (args : Args N) : Prop where
  opensCwd : args.opensCwd = true
  dirlookup : ∀ path, args.dirlookup path = true
  addstack : ∀ path, args.addstack path = true

def numRounds : ℤ := 200

/-- What a name comes to before the criteria: it is passed over, it fails the search, or it is an
object, which is pushed if it is a folder. -/
inductive Entry (N : Type) where
  | next
  | fail
  | object (a : Attr) (push : List (Item N))

/-- `check_dirent`, `of_stat` in the folder `cur` the process stands in, and the switch on the kind
of the object. -/
def entry [DecidableEq N] (env : Env N) (cur : Item N) (name : N) : Entry N :=
  if env.checkDirent name = false then .next
  else
    match cur.entries.lookup name with
    | none => .next
    | some (.unstat .other) => .fail
    | some (.unstat _) => .next
    | some .other => .next
    | some (.file a) => .object a []
    | some (.folder a c acc entries) =>
      match c with
      | .refuses => .next
      | .fails => .fail
      | .takes => .object a [.fresh (cur.path ++ [name]) acc entries]

/-- How the loop over the names is left. -/
inductive ReadEnd (N : Type) where
  | finished (l : Local N) (ds : List (Item N))
  | paused (l : Local N) (ds : List (Item N)) (rest : List N)
  | failed (l : Local N) (ds : List (Item N)) (rest : List N)

/-- The count down to the next look at the clock; whether the call pauses, and what it keeps. -/
def tick (args : Args N) (l : Local N) : Bool × Local N :=
  if l.numRounds - 1 ≤ 0 then
    (args.late l.looks, { l with numRounds := numRounds, looks := l.looks + 1 })
  else (false, { l with numRounds := l.numRounds - 1 })

/-- The criteria of an object and the three reasons to pause after it. -/
def report (env : Env N) (args : Args N) (path : List N) (a : Attr) (l : Local N) :
    Option (Bool × Local N) :=
  match a.check env.ext with
  | .fail => none
  | .next => some (tick args l)
  | .hit size =>
    let l := { l with rmatches := l.rmatches - 1, out := l.out.add path size }
    if pauses l.rmatches l.out then some (true, l) else some (tick args l)

/-- `while ((entry = readdir(dirpos)) != NULL)`, in the folder `cur`. -/
def readLoop [DecidableEq N] (env : Env N) (args : Args N) (cur : Item N) :
    List N → Local N → List (Item N) → ReadEnd N
  | [], l, ds => .finished l ds
  | name :: names, l, ds =>
    let l := { l with pos := (l.pos + 1) % 2 ^ 32 }
    match entry env cur name with
    | .next => readLoop env args cur names l ds
    | .fail => .failed l ds names
    | .object a push =>
      if !push.isEmpty && !args.addstack (cur.path ++ [name]) then .failed l [] names
      else
        match report env args (cur.path ++ [name]) a l with
        | none => .failed l (ds ++ push) names
        | some (true, l) => .paused l (ds ++ push) names
        | some (false, l) => readLoop env args cur names l (ds ++ push)

/-! ### The call -/

/-- What a call returns: its result, the position, the records, and the statics it leaves. -/
structure Return (N : Type) where
  result : Result
  pos : ℕ
  out : Reply (List N)
  walk : Walk N

/-- `opendir` of the folder: its names, or the error. -/
def Item.opendir (i : Item N) : Except Errno (List N) :=
  match i.access.opendir with
  | none => .ok (i.entries.map Prod.fst)
  | some e => .error e

/-- `movecwd` and the two attempts to open the folder.  A stream that is still open is kept, also
when the folder cannot be entered; the error is the one set last. -/
def enter (i : Item N) (dirpos : Option (List N)) : Option (List N) × Option Errno :=
  match dirpos with
  | some names => (some names, i.access.chdir)
  | none =>
    match i.opendir with
    | .ok names => (some names, i.access.chdir)
    | .error e => (none, some e)

/-- The loop over the stack. -/
def stackLoop [DecidableEq N] (env : Env N) (args : Args N) :
    ℕ → Local N → Walk N → Option (Return N)
  | 0, _, _ => none
  | fuel + 1, l, w =>
    match reducestack w with
    | (none, w) => some ⟨.eof, l.pos, l.out, w⟩
    | (some cidx, w) =>
      match w.dstack[cidx]? with
      | none => some ⟨.misc, l.pos, l.out, w⟩
      | some cur =>
        if !args.dirlookup cur.path then some ⟨.misc, l.pos, l.out, w⟩
        else
          match enter cur w.dirpos with
          | (dirpos, some .eacces) =>
            stackLoop env args fuel l
              { w with dirpos := dirpos, dstack := w.dstack.modify cidx Item.check }
          | (dirpos, some .nfile) => some ⟨.nfile, l.pos, l.out, { w with dirpos := dirpos }⟩
          | (dirpos, some .other) => some ⟨.misc, l.pos, l.out, { w with dirpos := dirpos }⟩
          | (dirpos, none) =>
            match readLoop env args cur (dirpos.getD []) l w.dstack with
            | .finished l ds =>
              stackLoop env args fuel l
                { w with dirpos := none, dstack := ds.modify cidx Item.check }
            | .paused l ds rest =>
              some ⟨.ok, l.pos, l.out, ⟨l.pos, some rest, some cidx, ds⟩⟩
            | .failed l ds rest =>
              some ⟨.misc, l.pos, l.out, { w with dirpos := some rest, dstack := ds }⟩

mutual
/-- The folders of a tree. -/
def Node.folders : Node N → ℕ
  | .folder _ _ _ entries => foldersIn entries + 1
  | _ => 0
/-- The folders below a folder. -/
def foldersIn : List (N × Node N) → ℕ
  | [] => 0
  | (_, node) :: entries => node.folders + foldersIn entries
end

/-- A folder to search: what is allowed in it and what it holds. -/
structure Root (N : Type) where
  access : Access
  entries : List (N × Node N)

/-- `catsearch`.  A round of the loop over the stack is for one folder, so that one round more than
there are folders is enough. -/
def catsearch [DecidableEq N] (env : Env N) (root : Root N) (args : Args N) (pos : ℕ) (w : Walk N) :
    Option (Return N) :=
  if pos ≠ 0 ∧ pos ≠ w.curPos then some ⟨.catchng, pos, .empty, w⟩
  else if pos = 0 ∧ args.addstack [] = false then
    some ⟨.misc, pos, .empty, ⟨w.curPos, none, none, []⟩⟩
  else
    let w :=
      if pos = 0 then ⟨w.curPos, none, none, [.fresh [] root.access root.entries]⟩ else w
    if args.opensCwd then
      stackLoop env args (foldersIn root.entries + 2) ⟨pos, args.rmatches, numRounds, 0, .empty⟩ w
    else some ⟨.misc, pos, .empty, w⟩

/-- A search from a position, the call number `i` next: the paths it reports, call after call, and
its last result. -/
inductive Session [DecidableEq N] (env : Env N) (root : Root N) (args : ℕ → Args N) :
    ℕ → Walk N → ℕ → List (List N) → Result → Prop
  | stop {i pos : ℕ} {w : Walk N} {r : Return N} :
      catsearch env root (args i) pos w = some r → r.result ≠ .ok →
      Session env root args i w pos r.out.recs r.result
  | resume {i pos : ℕ} {w : Walk N} {r : Return N} {rest : List (List N)} {res : Result} :
      catsearch env root (args i) pos w = some r → r.result = .ok →
      Session env root args (i + 1) r.walk r.pos rest res →
      Session env root args i w pos (r.out.recs ++ rest) res

/-! ### What a search has to report -/

/-- A folder whose names are found: it can be entered and read. -/
def Access.searchable (acc : Access) : Bool := acc.chdir = none && acc.opendir = none

/-- The path, if the object meets the criteria. -/
def Attr.hits (env : Env N) (a : Attr) (path : List N) : List (List N) :=
  match a.check env.ext with
  | .hit _ => [path]
  | _ => []

mutual
/-- The objects to report of a tree, by their paths. -/
def Node.objects (env : Env N) (path : List N) : Node N → List (List N)
  | .file a => a.hits env path
  | .folder a _ acc entries =>
    a.hits env path ++ if acc.searchable then objectsIn env path entries else []
  | .other => []
  | .unstat _ => []
/-- The objects to report of a folder's entries. -/
def objectsIn (env : Env N) (path : List N) : List (N × Node N) → List (List N)
  | [] => []
  | (name, node) :: entries =>
    (if env.checkDirent name then node.objects env (path ++ [name]) else []) ++
      objectsIn env path entries
end

/-- The objects to report of the searched folder. -/
def Root.objects (env : Env N) (root : Root N) : List (List N) :=
  if root.access.searchable then objectsIn env [] root.entries else []

mutual
/-- The names of a tree. -/
def Node.names : Node N → ℕ
  | .folder _ _ _ entries => namesIn entries
  | _ => 0
/-- The names below a folder. -/
def namesIn : List (N × Node N) → ℕ
  | [] => 0
  | (_, node) :: entries => node.names + namesIn entries + 1
end

end Netatalk.CatsearchWalk
