import Netatalk.Cname

/-! # The reading of AFP path names

A path reads as a list of elements: its maximal runs of NULs, of which every NUL after the first
moves to the parent, and the names between them.  `resolve` follows the elements in a tree of
directories.  `cname` finds what this reading finds, never leaves the volume, and moves the cursor
of the request over the path (`cname_reads`). -/

namespace Netatalk.Cname

open List Bytes

/-! ### Elements -/

/-- An element of a path: a run of NULs, with the number of those after the first, or a name. -/
inductive Element where
  | nuls (further : ℕ)
  | name (n : Name)
deriving DecidableEq, Repr

/-- The elements of a path. -/
def elements : List UInt8 → List Element
  | [] => []
  | b :: bs =>
    if b = 0 then
      match elements bs with
      | .nuls k :: es => .nuls (k + 1) :: es
      | es => .nuls 0 :: es
    else
      match elements bs with
      | .name n :: es => .name (b :: n) :: es
      | es => .name [b] :: es

theorem elements_eq_nil {bs : List UInt8} : elements bs = [] ↔ bs = [] := by
  constructor
  · intro h
    cases bs with
    | nil => rfl
    | cons =>
      rw [elements] at h
      split_ifs at h <;> split at h <;> cases h
  · rintro rfl
    rfl

variable {b : UInt8} {d : Did} {fuel : ℕ} {m name u : Name}

theorem exists_elements_of_ne (hb : b ≠ 0) (bs : List UInt8) :
    ∃ n es, elements (b :: bs) = .name (b :: n) :: es := by
  rw [elements, if_neg hb]
  split
  · exact ⟨_, _, rfl⟩
  · exact ⟨_, _, rfl⟩

theorem exists_elements_zero (bs : List UInt8) : ∃ k es, elements (0 :: bs) = .nuls k :: es := by
  rw [elements, if_pos rfl]
  split
  · exact ⟨_, _, rfl⟩
  · exact ⟨_, _, rfl⟩

theorem elements_zero (bs : List UInt8) : elements (0 :: bs) =
    .nuls (bs.takeWhile (· = 0)).length :: elements (bs.dropWhile (· = 0)) := by
  induction bs with
  | nil => rfl
  | cons c bs ih =>
    by_cases hc : c = 0
    · subst hc
      rw [elements, ih]
      simp
    · obtain ⟨n, es, hname⟩ := exists_elements_of_ne hc bs
      rw [elements]
      simp [hc, hname]

/-- The bytes up to the next NUL are an element. -/
theorem elements_name (hb : b ≠ 0) (bs : List UInt8) : elements (b :: bs) =
    .name ((b :: bs).takeWhile (· ≠ 0)) :: elements ((b :: bs).dropWhile (· ≠ 0)) := by
  induction bs generalizing b with
  | nil => simp [elements, hb]
  | cons c bs ih =>
    by_cases hc : c = 0
    · subst hc
      obtain ⟨k, es, hnuls⟩ := exists_elements_zero bs
      rw [elements]
      simp [hb, hnuls]
    · rw [elements, ih hc]
      simp [hb]

/-! ### Trees -/

/-- What a name in a directory stands for. -/
inductive Node where
  | file
  | symlink
  | special
  | dir (did : Did)
deriving DecidableEq, Repr

def Node.fileType : Node → FileType
  | .file => .reg
  | .symlink => .lnk
  | .special => .special
  | .dir _ => .dir

/-- A tree of directories: the nodes by directory and name on disk, and the parents.  A directory
in another one is neither the root nor its parent. -/
structure Tree where
  node : Did → Name → Option Node
  parent : Did → Did
  parent_of_node : ∀ {d n c}, node d n = some (.dir c) → parent c = d ∧ dirdidRoot < c

variable (T : Tree)

/-- The directories at or below the root. -/
inductive Tree.Below : Did → Prop where
  | root : Below dirdidRoot
  | child {d : Did} {n : Name} {c : Did} : Below d → T.node d n = some (.dir c) → Below c

variable {T} in
theorem Tree.Below.parent (h : T.Below d) (hd : d ≠ dirdidRoot) : T.Below (T.parent d) := by
  cases h with
  | root => exact absurd rfl hd
  | child hp hn => rwa [(T.parent_of_node hn).1]

variable {T} in
theorem Tree.Below.root_le (h : T.Below d) : dirdidRoot ≤ d := by
  cases h with
  | root => exact le_rfl
  | child _ hn => exact le_of_lt (T.parent_of_node hn).2

variable {T} in
theorem Tree.Below.ne_rootParent (h : T.Below d) : d ≠ dirdidRootParent := by
  rintro rfl
  exact absurd h.root_le (by decide)

/-! ### The reading -/

/-- Where a path leads: to a directory, or to an object or missing name in one. -/
inductive Target where
  | dir (did : Did)
  | object (did : Did) (m u : Name)
deriving DecidableEq, Repr

/-- Some steps to the parent, not out of the volume. -/
def up : ℕ → Did → Except AfpErr Did
  | 0, d => .ok d
  | k + 1, d => if d = dirdidRoot then .error .param else up k (T.parent d)

variable (vol : Volume) (toUTF8 : Bool)

/-- The client's view of a name and the name on disk. -/
def readName (d : Did) (n : Name) : Except AfpErr (Name × Name) :=
  if utf8filelenEarly < n.length then .error .param
  else
    match vol.mtouname toUTF8 d n with
    | none => .error .param
    | some (m, u) => if vol.checkName u then .ok (m, u) else .error .param

/-- The reading of the elements of a path from a directory on: a missing name, a file or a symlink
is the last one. -/
def resolve : List Element → Did → Except AfpErr Target
  | [], d => .ok (.dir d)
  | .nuls k :: es, d =>
    match up T k d with
    | .error e => .error e
    | .ok d => resolve es d
  | .name n :: es, d =>
    match readName vol toUTF8 d n with
    | .error e => .error e
    | .ok (m, u) =>
      match T.node d u with
      | none => if es = [] then .ok (.object d m u) else .error .noobj
      | some .file => if es = [] then .ok (.object d m u) else .error .param
      | some .symlink => if es = [] then .ok (.object d m u) else .error .param
      | some .special => .error .nodir
      | some (.dir c) => resolve es c

/-- The volume answers as the tree has it. -/
structure Serves : Prop where
  ofStat : ∀ {d u}, T.Below d → vol.ofStat d u = (T.node d u).map Node.fileType
  search : ∀ {d u c}, T.Below d → vol.dircacheSearch d u = some c → T.node d u = some (.dir c)
  add : ∀ {d u c}, T.Below d → T.node d u = some (.dir c) → vol.dircacheSearch d u = none →
    vol.dirAdd d u = .ok c
  parent : ∀ {d}, T.Below d → d ≠ dirdidRoot → vol.dirlookup (vol.pdid d) = .ok (T.parent d)
  movecwd : ∀ {d}, T.Below d → vol.movecwd d = .ok ()

/-! ### The walk -/

/-- The walk is in a directory of the volume, the last that it made current. -/
structure Inside (w : Walk) : Prop where
  below : T.Below w.dir
  current : w.visited.head? = some w.dir
  all : ∀ d ∈ w.visited, T.Below d

variable {T vol toUTF8} {w : Walk}

theorem Inside.enter (h : Inside T w) (hd : T.Below d) : Inside T (w.enter d) :=
  ⟨hd, rfl, forall_mem_cons.2 ⟨hd, h.all⟩⟩

/-- What a name that reads passes. -/
theorem readName_eq_ok (h : readName vol toUTF8 d name = .ok (m, u)) :
    ¬ utf8filelenEarly < name.length ∧ vol.mtouname toUTF8 d name = some (m, u) ∧
      vol.checkName u = true := by
  rw [readName] at h
  split_ifs at h with hlong
  cases hm : vol.mtouname toUTF8 d name with
  | none => simp [hm] at h
  | some =>
    simp only [hm] at h
    split_ifs at h with hcheck
    cases h
    exact ⟨hlong, rfl, hcheck⟩

/-- The inner loop goes up as often as NULs follow. -/
theorem walkUp_up (hs : Serves T vol) (h : Inside T w) (data : List UInt8) :
    (∃ e w', walkUp vol data w = (.error (.null e), w') ∧
        up T (data.takeWhile (· = 0)).length w.dir = .error e ∧ Inside T w') ∨
      ∃ w', walkUp vol data w = (.ok (data.dropWhile (· = 0)), w') ∧
        up T (data.takeWhile (· = 0)).length w.dir = .ok w'.dir ∧ Inside T w' ∧
        w'.mName = w.mName := by
  induction data generalizing w with
  | nil => exact .inr ⟨w, rfl, rfl, h, rfl⟩
  | cons b data ih =>
    by_cases hb : b = 0
    · subst hb
      rw [walkUp]
      simp only [decide_true, takeWhile_cons_of_pos, length_cons, up]
      by_cases hroot : w.dir = dirdidRoot
      · rw [if_pos hroot, if_pos hroot]
        exact .inl ⟨_, w, rfl, rfl, h⟩
      · rw [if_neg hroot, if_neg hroot, hs.parent h.below hroot]
        have hp := h.below.parent hroot
        simp only [hs.movecwd hp]
        exact ih (h.enter hp)
    · rw [walkUp]
      simp only [hb, decide_false, Bool.false_eq_true, not_false_eq_true,
        takeWhile_cons_of_neg, dropWhile_cons_of_neg]
      exact .inr ⟨w, rfl, rfl, h, rfl⟩

/-- A name is looked up in the tree. -/
theorem lookupName_node (hs : Serves T vol) (hd : T.Below d) (m u : Name) (last : Bool) :
    lookupName vol m u last d =
      match T.node d u with
      | none => if last then .ok none else .error (.null .noobj)
      | some .file => if last then .ok none else .error (.null .param)
      | some .symlink => if last then .ok none else .error (.null .param)
      | some .special => .error (.null .nodir)
      | some (.dir c) => .ok (some c) := by
  rw [lookupName, if_neg hd.ne_rootParent, hs.ofStat hd]
  cases hn : T.node d u with
  | none => rfl
  | some node =>
    cases node with
    | file => rfl
    | symlink => rfl
    | special => rfl
    | dir c =>
      cases hc : vol.dircacheSearch d u with
      | some c' =>
        have hcc : c' = c := by simpa [hn] using (hs.search hd hc).symm
        simp [Node.fileType, hcc]
      | none => simp [Node.fileType, hs.add hd hn hc]

/-- A name that does not read stops the walk. -/
theorem walkName_of_error (h : Inside T w) {e : AfpErr}
    (hread : readName vol toUTF8 w.dir name = .error e) (mType : ℕ) (rest : List UInt8) :
    ∃ w', walkName vol mType toUTF8 name rest w = (.error (.null e), w') ∧ Inside T w' := by
  rw [readName] at hread
  rw [walkName]
  by_cases hlong : utf8filelenEarly < name.length
  · rw [if_pos hlong] at hread ⊢
    cases hread
    exact ⟨w, rfl, h⟩
  rw [if_neg hlong] at hread ⊢
  cases hm : vol.mtouname toUTF8 w.dir name with
  | none =>
    simp only [hm] at hread
    cases hread
    exact ⟨w, rfl, h⟩
  | some mu =>
    cases hcheck : vol.checkName mu.2 with
    | true => simp [hm, hcheck] at hread
    | false =>
      simp only [hm, hcheck] at hread
      cases hread
      refine ⟨{ w with mName := mu.1, uName := mu.2 }, ?_, h.below, h.current, h.all⟩
      simp [hcheck, h.below.ne_rootParent]

/-- A name that reads is found in the tree. -/
theorem walkName_of_ok (hs : Serves T vol) (h : Inside T w)
    (hread : readName vol toUTF8 w.dir name = .ok (m, u)) (mType : ℕ) (rest : List UInt8) :
    walkName vol mType toUTF8 name rest w =
      match T.node w.dir u with
      | none => (if rest = [] then .ok () else .error (.null .noobj),
          { w with mName := m, uName := u })
      | some .file => (if rest = [] then .ok () else .error (.null .param),
          { w with mName := m, uName := u })
      | some .symlink => (if rest = [] then .ok () else .error (.null .param),
          { w with mName := m, uName := u })
      | some .special => (.error (.null .nodir), { w with mName := m, uName := u })
      | some (.dir c) => (.ok (), { w.enter c with mName := [], uName := u }) := by
  obtain ⟨hlong, hm, hcheck⟩ := readName_eq_ok hread
  rw [walkName, if_neg hlong, hm]
  simp only [hcheck, Bool.true_eq_false, and_false, if_false, lookupName_node hs h.below,
    List.isEmpty_iff]
  cases hn : T.node w.dir u with
  | none => split_ifs <;> rfl
  | some node =>
    cases node with
    | file => split_ifs <;> rfl
    | symlink => split_ifs <;> rfl
    | special => rfl
    | dir => simp only [hs.movecwd (h.below.child hn), Walk.enter]

/-- The walk ends where the reading leads. -/
def Ends (w : Walk) : Target → Prop
  | .dir d => w.dir = d ∧ w.mName = []
  | .object d m u => w.dir = d ∧ w.mName = m ∧ w.uName = u ∧ m ≠ []

/-- How the loop compares with the reading: both fail with one error, or the loop ends where the
reading leads. -/
def Agrees (T : Tree) (loop : Option Stop × Walk) (reading : Except AfpErr Target) : Prop :=
  Inside T loop.2 ∧
    ((∃ e, loop.1 = some (.null e) ∧ reading = .error e) ∨
      ∃ t, loop.1 = none ∧ reading = .ok t ∧ Ends loop.2 t)

theorem Agrees.stop (h : Inside T w) (e : AfpErr) :
    Agrees T (some (.null e), w) (.error e) := ⟨h, .inl ⟨e, rfl, rfl⟩⟩

theorem Agrees.stay (h : Inside T w) (hw : w.mName = []) : Agrees T (none, w) (.ok (.dir w.dir)) :=
  ⟨h, .inr ⟨_, rfl, rfl, rfl, hw⟩⟩

theorem walk_nil (mType fuel : ℕ) : walk vol mType toUTF8 fuel [] w = (none, w) := by
  cases fuel with
  | zero | succ => rfl

/-- The rest of the loop after a name. -/
def afterName (vol : Volume) (mType : ℕ) (toUTF8 : Bool) (fuel : ℕ) (rest : List UInt8) :
    Except Stop Unit × Walk → Option Stop × Walk
  | (.error stop, w) => (some stop, w)
  | (.ok (), w) => walk vol mType toUTF8 fuel rest w

/-- A name that must be the last element, with the error if it is not. -/
theorem Agrees.last (h : Inside T w) (hm : w.mName ≠ []) (mType fuel : ℕ) (e : AfpErr)
    (rest : List UInt8) : Agrees T
      (afterName vol mType toUTF8 fuel rest (if rest = [] then .ok () else .error (.null e), w))
      (if elements rest = [] then .ok (.object w.dir w.mName w.uName) else .error e) := by
  by_cases hrest : rest = []
  · subst hrest
    rw [if_pos rfl, afterName, walk_nil]
    exact ⟨h, .inr ⟨_, rfl, rfl, rfl, rfl, rfl, hm⟩⟩
  · rw [if_neg hrest, if_neg (mt elements_eq_nil.mp hrest)]
    exact .stop h e

/-- One name of the path, when the loop follows the elements behind it. -/
theorem afterName_resolve (hs : Serves T vol) (mType : ℕ) {name rest : List UInt8}
    (h : Inside T w) (hne : name ≠ [])
    (ih : ∀ {w : Walk}, Inside T w → w.mName = [] →
      Agrees T (walk vol mType toUTF8 fuel rest w) (resolve T vol toUTF8 (elements rest) w.dir)) :
    Agrees T (afterName vol mType toUTF8 fuel rest (walkName vol mType toUTF8 name rest w))
      (resolve T vol toUTF8 (.name name :: elements rest) w.dir) := by
  rw [resolve]
  cases hread : readName vol toUTF8 w.dir name with
  | error e =>
    obtain ⟨w', hstop, hin⟩ := walkName_of_error h hread mType rest
    rw [hstop]
    exact .stop hin e
  | ok mu =>
    obtain ⟨m, u⟩ := mu
    have hm : m ≠ [] := vol.mtouname_ne_nil (readName_eq_ok hread).2.1 hne
    have hw : Inside T { w with mName := m, uName := u } := { h with }
    rw [walkName_of_ok hs h hread]
    dsimp only
    cases hn : T.node w.dir u with
    | none => exact .last hw hm mType fuel _ rest
    | some node =>
      cases node with
      | file => exact .last hw hm mType fuel _ rest
      | symlink => exact .last hw hm mType fuel _ rest
      | special => exact .stop hw _
      | dir =>
        have hc := h.below.child hn
        exact ih ⟨hc, rfl, (h.enter hc).all⟩ rfl

/-- The loop follows the elements of the path. -/
theorem walk_resolve (hs : Serves T vol) (mType : ℕ) {data : List UInt8}
    (hfuel : data.length ≤ fuel) (h : Inside T w) (hw : w.mName = []) :
    Agrees T (walk vol mType toUTF8 fuel data w)
      (resolve T vol toUTF8 (elements data) w.dir) := by
  induction fuel generalizing data w with
  | zero =>
    rw [eq_nil_of_length_eq_zero (Nat.le_zero.mp hfuel)]
    exact .stay h hw
  | succ fuel ih =>
    cases data with
    | nil =>
      exact .stay h hw
    | cons b data =>
      have hlen : data.length ≤ fuel := Nat.le_of_succ_le_succ hfuel
      by_cases hb : b = 0
      · subst hb
        rw [elements_zero, walk, resolve]
        rcases walkUp_up hs h data with ⟨e, w', hup, he, hin⟩ | ⟨w', hup, hd, hin, hm⟩
        · rw [hup, he]
          exact .stop hin e
        · rw [hup, hd]
          exact ih (le_trans (dropWhile_sublist _).length_le hlen) hin (hm.trans hw)
      · rw [elements_name hb, walk, if_neg hb]
        have hne : (b :: data).takeWhile (· ≠ 0) ≠ [] := by simp [hb]
        have hrest : ((b :: data).dropWhile (· ≠ 0)).length ≤ fuel := by
          rw [dropWhile_cons_of_pos (by simpa using hb)]
          exact le_trans (dropWhile_sublist _).length_le hlen
        exact afterName_resolve hs mType h hne (ih hrest)

/-! ### Requests -/

/-- The result for a target. -/
def Target.path (mType : ℕ) : Target → Path
  | .dir d => ⟨mType, [], [46], some d⟩
  | .object _ m u => ⟨mType, m, u, none⟩

/-- The directory a target is in, or is. -/
def Target.cwd : Target → Did
  | .dir d => d
  | .object d _ _ => d

theorem finish_of_ends (h : Inside T w) (mType : ℕ) {t : Target} (ht : Ends w t) :
    finish mType w = .ok (t.path mType) ∧ w.dir = t.cwd := by
  rw [finish, if_neg h.below.ne_rootParent]
  cases t with
  | dir =>
    obtain ⟨rfl, hm⟩ := ht
    rw [if_pos hm]
    exact ⟨rfl, rfl⟩
  | object =>
    obtain ⟨rfl, rfl, rfl, hm⟩ := ht
    rw [if_neg hm]
    exact ⟨rfl, rfl⟩

/-- The path leads where the reading does, from any directory of the volume. -/
theorem cnamePath_resolve (hs : Serves T vol) {dir : Did} (hd : T.Below dir) (mType : ℕ)
    (path : List UInt8) : (cnamePath vol mType toUTF8 dir path).1 =
        (resolve T vol toUTF8 (elements path) dir).map (Target.path mType) ∧
      (∀ t, resolve T vol toUTF8 (elements path) dir = .ok t →
        (cnamePath vol mType toUTF8 dir path).2.head? = some t.cwd) ∧
      ∀ d ∈ (cnamePath vol mType toUTF8 dir path).2, T.Below d := by
  have hin : Inside T (Walk.enter ⟨dir, [], [], []⟩ dir) :=
    ⟨hd, rfl, fun d hmem => mem_singleton.mp hmem ▸ hd⟩
  have hagree : Agrees T _ (resolve T vol toUTF8 (elements path) dir) :=
    walk_resolve hs mType (le_refl path.length) hin rfl
  rw [cnamePath, hs.movecwd hd]
  generalize walk vol mType toUTF8 path.length path _ = loop at hagree ⊢
  obtain ⟨stop, w⟩ := loop
  obtain ⟨h, ⟨e, rfl, hread⟩ | ⟨t, rfl, hread, ht⟩⟩ := hagree
  · rw [hread]
    refine ⟨rfl, fun t ht => ?_, h.all⟩
    cases ht
  · obtain ⟨hfinish, hcwd⟩ := finish_of_ends h mType ht
    rw [hread]
    refine ⟨hfinish, fun t' ht' => ?_, h.all⟩
    cases ht'
    rw [← hcwd]
    exact h.current

/-- The header of a path: a long name with a length byte, which AFP 3 converts, or a UTF-8 name
with a hint and a length of two bytes. -/
inductive Encodes (vol : Volume) (path : List UInt8) : List UInt8 → ℕ → Bool → Prop where
  | long (hlen : path.length < 256) (hv : vol.afpVersion < 30) :
      Encodes vol path [2, path.length.toUInt8] 2 false
  | longUTF8 (hlen : path.length < 256) (hv : 30 ≤ vol.afpVersion) :
      Encodes vol path [2, path.length.toUInt8] 3 true
  | utf8 (hint : List UInt8) (hhint : hint.length = 4) (hlen : path.length < 65536)
      (hv : 30 ≤ vol.afpVersion) :
      Encodes vol path (3 :: (hint ++ beBytes 2 path.length)) 3 false

theorem cname_two (dir : Did) (len : UInt8) (data : List UInt8) : cname vol dir (2 :: len :: data) =
      if 30 ≤ vol.afpVersion then
        (len.toNat + 2, cnamePath vol 3 true dir (data.take len.toNat))
      else (len.toNat + 2, cnamePath vol 2 false dir (data.take len.toNat)) := rfl

theorem cname_three (hv : 30 ≤ vol.afpVersion) (dir : Did) {hint len : List UInt8}
    (hhint : hint.length = 4) (hlen : len.length = 2) (data : List UInt8) :
    cname vol dir (3 :: (hint ++ len) ++ data) =
      (beNat len + 7, cnamePath vol 3 false dir (data.take (beNat len))) := by
  have hdrop5 : (3 :: (hint ++ len) ++ data).drop 5 = len ++ data := by
    rw [cons_append, drop_succ_cons, append_assoc, drop_left' hhint]
  have hdrop7 : (3 :: (hint ++ len) ++ data).drop 7 = data := by
    rw [show 7 = 5 + 2 from rfl, ← drop_drop, hdrop5, drop_left' hlen]
  change (if 30 ≤ vol.afpVersion then _ else _) = _
  rw [if_pos hv, hdrop5, hdrop7, take_left' hlen]

/-- The header is read back. -/
theorem cname_encodes {path header : List UInt8} {mType : ℕ}
    (henc : Encodes vol path header mType toUTF8) (dir : Did) (rest : List UInt8) :
    cname vol dir (header ++ path ++ rest) =
      (header.length + path.length, cnamePath vol mType toUTF8 dir path) := by
  rw [append_assoc, add_comm]
  cases henc with
  | long hlen hv =>
    have hbyte : path.length.toUInt8.toNat = path.length := Nat.mod_eq_of_lt hlen
    rw [cons_append, cons_append, nil_append, cname_two,
      if_neg hv.not_ge, hbyte, take_left]
    rfl
  | longUTF8 hlen hv =>
    have hbyte : path.length.toUInt8.toNat = path.length := Nat.mod_eq_of_lt hlen
    rw [cons_append, cons_append, nil_append, cname_two, if_pos hv, hbyte,
      take_left]
    rfl
  | utf8 hint hhint hlen hv =>
    rw [cname_three hv dir hhint (length_beBytes 2 _), beNat_beBytes_of_lt hlen, take_left,
      length_cons, length_append, hhint, length_beBytes]

/-- `cname` finds what the reading finds, in every volume that answers as a tree, from every
directory of it: the cursor moves over the path, and every directory made current is at or below
the root. -/
theorem cname_reads (hs : Serves T vol) {dir : Did} (hd : T.Below dir) {path header : List UInt8}
    {mType : ℕ} (henc : Encodes vol path header mType toUTF8) (rest : List UInt8) :
    (cname vol dir (header ++ path ++ rest)).1 = header.length + path.length ∧
      (cname vol dir (header ++ path ++ rest)).2.1 =
        (resolve T vol toUTF8 (elements path) dir).map (Target.path mType) ∧
      (∀ t, resolve T vol toUTF8 (elements path) dir = .ok t →
        (cname vol dir (header ++ path ++ rest)).2.2.head? = some t.cwd) ∧
      ∀ d ∈ (cname vol dir (header ++ path ++ rest)).2.2, T.Below d ∧ d ≠ dirdidRootParent := by
  rw [cname_encodes henc]
  obtain ⟨hpath, hcwd, hbelow⟩ := cnamePath_resolve hs hd mType path
  exact ⟨rfl, hpath, hcwd, fun d hmem => ⟨hbelow d hmem, (hbelow d hmem).ne_rootParent⟩⟩

/-- A volume for a tree, with a cold dircache and names that stay as they are. -/
def Tree.volume (T : Tree) (afpVersion : ℕ) : Volume where
  afpVersion := afpVersion
  ofStat d u := (T.node d u).map Node.fileType
  dircacheSearch _ _ := none
  dirAdd d u :=
    match T.node d u with
    | some (.dir c) => .ok c
    | _ => .error .misc
  pdid := T.parent
  dirlookup := .ok
  movecwd _ := .ok ()
  mName _ := []
  uName _ := []
  mtouname _ _ n := some (n, n)
  checkName _ := true
  mtouname_ne_nil h hne := by cases h; exact hne

theorem Tree.serves (T : Tree) (afpVersion : ℕ) : Serves T (T.volume afpVersion) where
  ofStat _ := rfl
  search _ h := by cases h
  add _ h _ := by simp [Tree.volume, h]
  parent _ _ := rfl
  movecwd _ := rfl

/-- A directory 17 named `a` in the root, with a file `f`. -/
def smallTree : Tree where
  node d n :=
    if d = dirdidRoot ∧ n = [97] then some (.dir 17)
    else if d = 17 ∧ n = [102] then some .file
    else none
  parent d := if d = 17 then dirdidRoot else dirdidRootParent
  parent_of_node := by
    intro d n c h
    split_ifs at h with hroot hfile
    · cases h
      exact ⟨hroot.1.symm, by decide⟩
    · cases h

theorem smallTree_below : smallTree.Below 17 := .child (n := [97]) .root rfl

/-- From 17 two NULs lead to the root, and `a`, `f` to the file. -/
theorem cname_reads_up :
    (cname (smallTree.volume 30) 17 ([2, 5] ++ [0, 0, 97, 0, 102] ++ [9])).1 = 7 ∧
      (cname (smallTree.volume 30) 17 ([2, 5] ++ [0, 0, 97, 0, 102] ++ [9])).2.1 =
        .ok ⟨3, [102], [102], none⟩ := by
  have henc : Encodes (smallTree.volume 30) [0, 0, 97, 0, 102] [2, 5] 3 true :=
    .longUTF8 (by decide) (by decide)
  have h := cname_reads (smallTree.serves 30) smallTree_below henc [9]
  exact ⟨h.1, h.2.1.trans rfl⟩

end Netatalk.Cname
