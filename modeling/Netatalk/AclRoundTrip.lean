import Netatalk.AclRights

/-! # Sending an ACL back as it was read

`get_and_map_acl` (`etc/afpd/acls.c`) gives a client the named entries of a POSIX ACL as Darwin
ACEs, each limited by the mask.  `set_acl` takes such a list, keeps the entries for the owner, the
owning group and all others, adds an entry for every ACE that maps to a permission, and computes the
mask anew.

What comes back is the base entries with the entries that the mask did not empty (`kept`).  An
emptied entry no longer stands before the classes behind it, and the new mask lets everything pass
that the owning group has.  `RoundTrips` says when neither makes a difference to any user. -/

namespace Netatalk.AclRoundTrip

open List Option PosixAcl AclRights
open Entry (tag)

abbrev PosixEntry := Entry ℕ ℕ

/-! ### Accounts -/

inductive UuidType where
  | user | group | enoent
deriving DecidableEq, Repr

/-- The lookups between ids, names and UUIDs. -/
structure Accounts (Name Uuid : Type) where
  getpwuid : ℕ → Option Name
  getpwnam : Name → Option ℕ
  getgrgid : ℕ → Option Name
  getgrnam : Name → Option ℕ
  getuuidfromname : Name → UuidType → Option Uuid
  getnamefromuuid : Uuid → Option (Name × UuidType)

variable {Name Uuid : Type} (n : Accounts Name Uuid)

/-- User and group names, ids and UUIDs map one to one. -/
structure Accounts.OneToOne : Prop where
  user : ∀ uid, ∃ name uuid, n.getpwuid uid = some name ∧ n.getpwnam name = some uid ∧
    n.getuuidfromname name .user = some uuid ∧ n.getnamefromuuid uuid = some (name, .user)
  group : ∀ gid, ∃ name uuid, n.getgrgid gid = some name ∧ n.getgrnam name = some gid ∧
    n.getuuidfromname name .group = some uuid ∧ n.getnamefromuuid uuid = some (name, .group)

/-! ### Reading -/

def darwinAceFlagsPermit : UInt32 := 0x00000001
def darwinAceFlagsFileInherit : UInt32 := 0x00000020
def darwinAceFlagsDirectoryInherit : UInt32 := 0x00000040
def darwinAceFlagsLimitInherit : UInt32 := 0x00000080
def darwinAceFlagsOnlyInherit : UInt32 := 0x00000100

def darwinAceInheritControlFlags : UInt32 :=
  darwinAceFlagsFileInherit ||| darwinAceFlagsDirectoryInherit ||| darwinAceFlagsLimitInherit |||
    darwinAceFlagsOnlyInherit

/-- `darwin_ace_t`, its numbers in host byte order. -/
structure DarwinAce (Uuid : Type) where
  uuid : Uuid
  flags : UInt32
  rights : UInt32
deriving DecidableEq

inductive AclType where
  | access | default
deriving DecidableEq, Repr

/-- The flags of an ACE that stands for an entry of the ACL. -/
def aceFlags : AclType → UInt32
  | .access => darwinAceFlagsPermit
  | .default => darwinAceFlagsPermit ||| (darwinAceFlagsFileInherit |||
      darwinAceFlagsDirectoryInherit ||| darwinAceFlagsOnlyInherit)

/-- The UUID of the user or group of an entry, if it has one. -/
def uuidOf : Tag ℕ ℕ → Option Uuid
  | .user uid => do n.getuuidfromname (← n.getpwuid uid) .user
  | .group gid => do n.getuuidfromname (← n.getgrgid gid) .group
  | _ => none

/-- The first loop of `map_acl_posix_to_darwin`: the ACEs, unlimited, and the mask. -/
def mapEntries (type : AclType) (isDir : Bool) :
    List PosixEntry → List (DarwinAce Uuid) → UInt32 → Option (List (DarwinAce Uuid) × UInt32)
  | [], aces, maskrights => some (aces, maskrights)
  | e :: l, aces, maskrights =>
    match e.tag with
    | .user _ | .group _ => do
        let uuid ← uuidOf n e.tag
        let rights := posixPermsetToDarwinRights e.perms isDir
        mapEntries type isDir l (aces ++ [⟨uuid, aceFlags type, rights⟩]) maskrights
    | .mask => mapEntries type isDir l aces (posixPermsetToDarwinRights e.perms isDir)
    | _ => mapEntries type isDir l aces maskrights

/-- `map_acl_posix_to_darwin`. -/
def mapAclPosixToDarwin (type : AclType) (isDir : Bool) (acl : List PosixEntry) :
    Option (List (DarwinAce Uuid)) := do
  let (aces, maskrights) ← mapEntries n type isDir acl [] 0
  return aces.map fun a => { a with rights := a.rights &&& maskrights }

/-- `acl_valid`. -/
def aclValid (acl : List PosixEntry) : Bool :=
  (acl.map tag).Nodup ∧ hasTag .userObj acl ∧ hasTag .groupObj acl ∧ hasTag .other acl ∧
    (acl.any (·.tag.named) → hasTag .mask acl)

/-- A file or directory: its owner, owning group and ACLs.  Without a default ACL, as every file is,
the default ACL is empty. -/
structure File where
  isDir : Bool
  uid : ℕ
  gid : ℕ
  access : List PosixEntry
  default : List PosixEntry
  access_valid : aclValid access = true
  default_valid : default = [] ∨ aclValid default = true
  default_dir : isDir = false → default = []

/-- `get_and_map_acl`: the ACEs of the default ACL of a directory, then those of the access ACL. -/
def getAndMapAcl (f : File) : Option (List (DarwinAce Uuid)) := do
  let defaces ← if f.isDir then mapAclPosixToDarwin n .default f.isDir f.default else some []
  let accaces ← mapAclPosixToDarwin n .access f.isDir f.access
  return defaces ++ accaces

/-! ### Writing -/

/-- `posix_acl_add_perm`. -/
def posixAclAddPerm (tag : Tag ℕ ℕ) (perm : Finset Access) : List PosixEntry → List PosixEntry
  | [] => [⟨tag, perm⟩]
  | e :: l =>
    if e.tag = tag then ⟨e.tag, e.perms ∪ perm⟩ :: l else e :: posixAclAddPerm tag perm l

/-- The ACLs `map_aces_darwin_to_posix` is filling, whether the default ACL has got an entry, and
the number of ACEs mapped.  Files have no default ACL. -/
structure Mapped where
  default : Option (List PosixEntry)
  access : List PosixEntry
  extDefault : Bool
  mappedAces : ℕ

/-- The id behind a UUID: an unknown one fails, and one of another type is skipped. -/
def tagOf (uuid : Uuid) : Option (Option (Tag ℕ ℕ)) := do
  match ← n.getnamefromuuid uuid with
  | (name, .user) => return some (.user (← n.getpwnam name))
  | (name, .group) => return some (.group (← n.getgrnam name))
  | (_, .enoent) => return none

/-- The body of the loop of `map_aces_darwin_to_posix`. -/
def mapAce (m : Mapped) (a : DarwinAce Uuid) : Option Mapped :=
  if a.flags &&& darwinAceFlagsPermit = 0 then some m
  else
    let perm := mapDarwinRightToPosixPermset a.rights m.default.isSome
    if perm = ∅ then some m
    else
      match tagOf n a.uuid with
      | none => none
      | some none => some m
      | some (some tag) =>
        if a.flags &&& darwinAceInheritControlFlags ≠ 0 then
          match m.default with
          | none => none
          | some d => some {
              default := some (posixAclAddPerm tag perm d)
              access := if a.flags &&& darwinAceFlagsOnlyInherit = 0 then
                  posixAclAddPerm tag perm m.access
                else m.access
              extDefault := true
              mappedAces := m.mappedAces + 1 }
        else some { m with
          access := posixAclAddPerm tag perm m.access
          mappedAces := m.mappedAces + 1 }

/-- `map_aces_darwin_to_posix`. -/
def mapAcesDarwinToPosix (aces : List (DarwinAce Uuid)) (m : Mapped) : Option Mapped := do
  let m ← aces.foldlM (mapAce n) m
  if 0 < aces.length ∧ m.mappedAces = 0 then none else some m

/-- The tags of the group class. -/
def groupClass : Tag ℕ ℕ → Bool
  | .user _ | .groupObj | .group _ => true
  | _ => false

/-- `acl_calc_mask`: the mask becomes the union of the entries of the group class. -/
def aclCalcMask (acl : List PosixEntry) : List PosixEntry :=
  acl.filter (·.tag ≠ .mask) ++ [⟨.mask, gathered groupClass acl⟩]

inductive AfpError where
  | ok | misc
deriving DecidableEq, Repr

/-- The entry is for the owner, the owning group or all others. -/
def isBase : Tag ℕ ℕ → Bool
  | .userObj | .groupObj | .other => true
  | _ => false

/-- The loop at the start of `set_acl` that removes the named entries and the mask. -/
def base (acl : List PosixEntry) : List PosixEntry := acl.filter (isBase ·.tag)

/-- Writing the default ACL at the end of `set_acl`. -/
def setDefault (m : Mapped) (hasDefault : Bool) (f : File) : AfpError × File :=
  match m.default with
  | none => (.ok, f)
  | some d =>
    let d := if m.extDefault then aclCalcMask d else d
    if hasDefault || m.extDefault then
      -- only a directory has got a default ACL to fill
      if h : f.isDir = true ∧ aclValid d then
        (.ok, { f with
          default := d
          default_valid := .inr h.2
          default_dir := fun hf => absurd h.1 (by rw [hf]; exact Bool.false_ne_true) })
      else (.misc, f)
    else (.ok, f)

/-- `set_acl`, on a file whose ACLs can be read and written. -/
def setAcl (f : File) (aces : List (DarwinAce Uuid)) : AfpError × File :=
  let access := base f.access
  let default := if f.isDir then some access else none
  match mapAcesDarwinToPosix n aces ⟨default, access, false, 0⟩ with
  | none => (.misc, f)
  | some m =>
    let access := aclCalcMask m.access
    if h : aclValid access then
      setDefault m (f.isDir && f.default ≠ []) { f with access := access, access_valid := h }
    else (.misc, f)

/-! ### What is read -/

variable {n}

theorem Accounts.OneToOne.uuidOf (h : n.OneToOne) {t : Tag ℕ ℕ} (ht : t.named = true) :
    ∃ uuid, uuidOf n t = some uuid ∧ tagOf n uuid = some (some t) := by
  cases t with
  | user uid =>
    obtain ⟨name, uuid, huid, hname, huuid, hback⟩ := h.user uid
    exact ⟨uuid, by simp [AclRoundTrip.uuidOf, huid, huuid], by simp [tagOf, hback, hname]⟩
  | group gid =>
    obtain ⟨name, uuid, hgid, hname, huuid, hback⟩ := h.group gid
    exact ⟨uuid, by simp [AclRoundTrip.uuidOf, hgid, huuid], by simp [tagOf, hback, hname]⟩
  | userObj | groupObj | mask | other => cases ht

/-- The ACE gives the permissions to the user or group of the tag. -/
structure StandsFor (n : Accounts Name Uuid) (type : AclType) (isDir : Bool) (t : Tag ℕ ℕ)
    (p : Finset Access) (a : DarwinAce Uuid) : Prop where
  tag : tagOf n a.uuid = some (some t)
  flags : a.flags = aceFlags type
  rights : a.rights = posixPermsetToDarwinRights p isDir

/-- The entries for users and groups by name. -/
def namedOf (acl : List PosixEntry) : List PosixEntry := acl.filter (·.tag.named)

theorem mapEntries_spec (h : n.OneToOne) (type : AclType) (isDir : Bool) (l : List PosixEntry)
    (aces : List (DarwinAce Uuid)) (m : UInt32) :
    ∃ new, mapEntries n type isDir l aces m = some (aces ++ new, lastMask isDir l m) ∧
      List.Forall₂ (fun e a => StandsFor n type isDir e.tag e.perms a) (namedOf l) new := by
  induction l generalizing aces m with
  | nil => exact ⟨[], by simp [mapEntries, lastMask], .nil⟩
  | cons e l ih =>
    obtain ⟨t, p⟩ := e
    have hlookup := @Accounts.OneToOne.uuidOf _ _ _ h t
    cases t with
    | userObj | groupObj | mask | other => exact ih aces _
    | user | group =>
      obtain ⟨uuid, huuid, hback⟩ := hlookup rfl
      let a : DarwinAce Uuid := ⟨uuid, aceFlags type, posixPermsetToDarwinRights p isDir⟩
      obtain ⟨new, hnew, hall⟩ := ih (aces ++ [a]) m
      refine ⟨a :: new, ?_, .cons ⟨hback, rfl, rfl⟩ hall⟩
      rw [append_assoc] at hnew
      simp only [mapEntries, huuid, bind, bind_some, lastMask]
      exact hnew

/-- Tags are not repeated, and an ACL with named entries has a mask. -/
structure Masked (acl : List PosixEntry) : Prop where
  nodup : (acl.map tag).Nodup
  mask : ∀ e ∈ acl, e.tag.named = true → hasTag .mask acl = true

variable {acl : List PosixEntry}

theorem aclValid_iff :
    aclValid acl = true ↔ Masked acl ∧ hasTag .userObj acl = true ∧ hasTag .groupObj acl = true ∧
      hasTag .other acl = true := by
  simp only [aclValid, decide_eq_true_eq, List.any_eq_true, forall_exists_index, and_imp]
  constructor
  · rintro ⟨hn, hu, hg, ho, hm⟩
    exact ⟨⟨hn, hm⟩, hu, hg, ho⟩
  · rintro ⟨hm, hu, hg, ho⟩
    exact ⟨hm.nodup, hu, hg, ho, hm.mask⟩

theorem File.access_masked (f : File) : Masked f.access := (aclValid_iff.mp f.access_valid).1

theorem File.default_masked (f : File) : Masked f.default := by
  rcases f.default_valid with h | h
  · rw [h]
    exact ⟨nodup_nil, fun e he => absurd he not_mem_nil⟩
  · exact (aclValid_iff.mp h).1

/-- Every named entry is read as far as the mask lets it pass. -/
theorem mapAclPosixToDarwin_spec (h : n.OneToOne) (type : AclType) (isDir : Bool)
    (hm : Masked acl) :
    ∃ aces, mapAclPosixToDarwin n type isDir acl = some aces ∧
      List.Forall₂ (fun e a => StandsFor n type isDir e.tag (limit acl e.perms) a)
        (namedOf acl) aces := by
  obtain ⟨new, hnew, hall⟩ := mapEntries_spec h type isDir acl [] 0
  refine ⟨_, by rw [mapAclPosixToDarwin, hnew]; rfl, ?_⟩
  rw [forall₂_map_right_iff]
  have hmask : ∀ e ∈ namedOf acl, hasTag .mask acl = true := by
    intro e he
    obtain ⟨he, hnamed⟩ := mem_filter.mp he
    exact hm.mask e he hnamed
  refine ((forall₂_and_left _ _).mpr ⟨hmask, hall⟩).imp ?_
  rintro e a ⟨hmask, hs⟩
  refine ⟨hs.tag, hs.flags, ?_⟩
  rw [hs.rights, lastMask_eq hm.nodup, limit, hmask, if_pos rfl, if_pos rfl, darwinRights_inter]

/-! ### What is written -/

/-- An entry for an ACE, if it maps to a permission. -/
def entryOf (t : Tag ℕ ℕ) (p : Finset Access) : List PosixEntry := if p = ∅ then [] else [⟨t, p⟩]

/-- The entries that come back. -/
def kept (acl : List PosixEntry) : List PosixEntry :=
  (namedOf acl).flatMap fun e => entryOf e.tag (limit acl e.perms)

variable {e : PosixEntry} {p : Tag ℕ ℕ → Bool} {t : Tag ℕ ℕ} {uid : ℕ}

theorem posixAclAddPerm_fresh {l : List PosixEntry} (h : t ∉ l.map tag)
    (p : Finset Access) : posixAclAddPerm t p l = l ++ [⟨t, p⟩] := by
  induction l with
  | nil => rfl
  | cons e l ih =>
    rw [map_cons, mem_cons, not_or] at h
    rw [posixAclAddPerm, if_neg (Ne.symm h.1), ih h.2, cons_append]

/-- New entries for one of the two ACLs. -/
def Mapped.put (m : Mapped) : AclType → List PosixEntry → Mapped
  | .access, es => { m with
      access := m.access ++ es
      mappedAces := m.mappedAces + es.length }
  | .default, es => { m with
      default := m.default.map (· ++ es)
      extDefault := m.extDefault || !es.isEmpty
      mappedAces := m.mappedAces + es.length }

/-- The tags of one of the two ACLs. -/
def Mapped.tags (m : Mapped) : AclType → List (Tag ℕ ℕ)
  | .access => m.access.map tag
  | .default => (m.default.getD []).map tag

theorem Mapped.put_nil (m : Mapped) (type : AclType) : m.put type [] = m := by
  obtain ⟨d, a, e, k⟩ := m
  cases type <;> cases d <;> simp [Mapped.put]

theorem Mapped.put_put (m : Mapped) (type : AclType) (es es' : List PosixEntry) :
    (m.put type es).put type es' = m.put type (es ++ es') := by
  obtain ⟨d, a, e, k⟩ := m
  cases type <;> cases d <;> cases es <;> simp [Mapped.put, add_assoc, add_comm 1]

theorem Mapped.tags_put {m : Mapped} {type : AclType} (hd : type = .default → m.default.isSome)
    (es : List PosixEntry) : (m.put type es).tags type = m.tags type ++ es.map tag := by
  obtain ⟨d, a, e, k⟩ := m
  cases type with
  | access => simp [Mapped.put, Mapped.tags]
  | default =>
    obtain ⟨d, rfl⟩ := isSome_iff_exists.mp (hd rfl)
    simp [Mapped.put, Mapped.tags]

theorem Mapped.isSome_put (m : Mapped) (type : AclType) (es : List PosixEntry) :
    (m.put type es).default.isSome = m.default.isSome := by
  cases type with
  | access => rfl
  | default => exact isSome_map

variable {type : AclType} {isDir : Bool} {m : Mapped}

/-- An ACE for a user or group that the ACL has no entry of adds one, unless it maps to nothing. -/
theorem mapAce_spec {p : Finset Access} {a : DarwinAce Uuid} (hs : StandsFor n type isDir t p a)
    (hdir : m.default.isSome = isDir) (hd : type = .default → m.default.isSome)
    (hfresh : t ∉ m.tags type) : mapAce n m a = some (m.put type (entryOf t p)) := by
  have hpermit : ∀ type, aceFlags type &&& darwinAceFlagsPermit ≠ 0 := by
    intro type
    cases type <;> decide
  rw [mapAce, hs.flags, if_neg (hpermit type), hs.rights, hdir, mapDarwinRight_darwinRights,
    hs.tag, entryOf]
  by_cases hp : p = ∅
  · rw [if_pos hp, if_pos hp, m.put_nil]
  · rw [if_neg hp, if_neg hp]
    cases type with
    | access =>
      rw [Mapped.put, ← posixAclAddPerm_fresh hfresh]
      rfl
    | default =>
      have hbits : aceFlags .default &&& darwinAceInheritControlFlags ≠ 0 := by decide
      obtain ⟨d, hsome⟩ := isSome_iff_exists.mp (hd rfl)
      rw [Mapped.tags, hsome, getD_some] at hfresh
      rw [Mapped.put, hsome, map_some,
        ← posixAclAddPerm_fresh hfresh, isEmpty_cons, Bool.not_false, Bool.or_true]
      rfl

theorem foldlM_mapAce {es : List PosixEntry} {aces : List (DarwinAce Uuid)}
    (h : List.Forall₂ (fun e a => StandsFor n type isDir e.tag (limit acl e.perms) a) es aces)
    (hn : (es.map tag).Nodup) (hdir : m.default.isSome = isDir)
    (hd : type = .default → m.default.isSome) (hfresh : ∀ e ∈ es, e.tag ∉ m.tags type) :
    aces.foldlM (mapAce n) m =
      some (m.put type (es.flatMap fun e => entryOf e.tag (limit acl e.perms))) := by
  induction h generalizing m with
  | nil => rw [foldlM_nil, flatMap_nil, m.put_nil]; rfl
  | @cons e a es aces hs _ ih =>
    obtain ⟨hnot, hn⟩ := nodup_cons.mp hn
    rw [foldlM_cons, mapAce_spec hs hdir hd (hfresh e mem_cons_self)]
    show foldlM (mapAce n) _ aces = _
    rw [ih hn, Mapped.put_put, flatMap_cons]
    · rw [Mapped.isSome_put, hdir]
    · rw [Mapped.isSome_put]
      exact hd
    · intro e' he'
      rw [Mapped.tags_put hd, mem_append, not_or]
      refine ⟨hfresh e' (mem_cons_of_mem e he'), ?_⟩
      rw [entryOf]
      split_ifs
      · exact not_mem_nil
      · rw [map_cons, map_nil, mem_singleton]
        intro heq
        exact hnot (heq ▸ List.mem_map_of_mem he')

theorem mem_base :
    e ∈ base acl ↔ e ∈ acl ∧ isBase e.tag = true := mem_filter

theorem mem_kept :
    e ∈ kept acl ↔ ∃ e' ∈ acl, e'.tag.named = true ∧ limit acl e'.perms ≠ ∅ ∧
      e = ⟨e'.tag, limit acl e'.perms⟩ := by
  simp only [kept, namedOf, mem_flatMap, mem_filter, entryOf]
  constructor
  · rintro ⟨e', ⟨he', hnamed⟩, he⟩
    split_ifs at he with hp
    · cases he
    · exact ⟨e', he', hnamed, hp, mem_singleton.mp he⟩
  · rintro ⟨e', he', hnamed, hp, rfl⟩
    refine ⟨e', ⟨he', hnamed⟩, ?_⟩
    rw [if_neg hp]
    exact mem_cons_self

theorem named_of_mem_kept (he : e ∈ kept acl) : e.tag.named = true := by
  obtain ⟨e', _, hnamed, _, rfl⟩ := mem_kept.mp he
  exact hnamed

theorem not_isBase_of_named (h : t.named = true) : isBase t = false := by
  cases t <;> first | rfl | cases h

theorem tags_kept_sublist : ((kept acl).map tag).Sublist (acl.map tag) := by
  have hentries : ∀ l : List PosixEntry,
      ((l.flatMap fun e => entryOf e.tag (limit acl e.perms)).map tag).Sublist
        (l.map tag) := by
    intro l
    induction l with
    | nil => exact .slnil
    | cons e l ih =>
      rw [flatMap_cons, entryOf]
      split_ifs
      · exact ih.cons _
      · exact ih.cons_cons _
  exact (hentries _).trans (filter_sublist.map _)

/-- The base entries of one ACL and the entries that come back of another make an ACL, its mask
computed. -/
theorem aclValid_rewritten {acl' : List PosixEntry} (h : aclValid acl = true) (h' : Masked acl') :
    aclValid (aclCalcMask (base acl ++ kept acl')) = true := by
  obtain ⟨hm, hu, hg, ho⟩ := aclValid_iff.mp h
  have hnomask : ∀ e ∈ base acl ++ kept acl', e.tag ≠ .mask := by
    intro e he ht
    rcases mem_append.mp he with he | he
    · have := (mem_base.mp he).2
      rw [ht] at this
      cases this
    · have := named_of_mem_kept he
      rw [ht] at this
      cases this
  have hfilter : (base acl ++ kept acl').filter (·.tag ≠ .mask) = base acl ++ kept acl' :=
    filter_eq_self.mpr fun e he => decide_eq_true (hnomask e he)
  have hbase : ∀ {t}, isBase t = true → hasTag t acl = true →
      hasTag t (aclCalcMask (base acl ++ kept acl')) = true := by
    intro t ht htag
    obtain ⟨e, he, rfl⟩ := hasTag_iff.mp htag
    refine hasTag_iff.mpr ⟨e, ?_, rfl⟩
    rw [aclCalcMask, hfilter]
    exact mem_append_left _ (mem_append_left _ (mem_base.mpr ⟨he, ht⟩))
  refine aclValid_iff.mpr ⟨⟨?_, fun _ _ _ => ?_⟩, hbase rfl hu, hbase rfl hg, hbase rfl ho⟩
  · rw [aclCalcMask, hfilter, map_append, map_append, nodup_append]
    refine ⟨?_, nodup_singleton _, ?_⟩
    · refine nodup_append.mpr ⟨hm.nodup.sublist (filter_sublist.map _),
        h'.nodup.sublist tags_kept_sublist, ?_⟩
      rintro t hb t' hk rfl
      obtain ⟨e, he, rfl⟩ := List.mem_map.mp hb
      obtain ⟨e', he', heq⟩ := List.mem_map.mp hk
      have hnot := not_isBase_of_named (named_of_mem_kept he')
      rw [heq, (mem_base.mp he).2] at hnot
      cases hnot
    · rintro t ht t' hmask rfl
      rw [← map_append] at ht
      obtain ⟨e, he, rfl⟩ := List.mem_map.mp ht
      exact hnomask e he (mem_singleton.mp hmask)
  · exact hasTag_iff.mpr ⟨_, mem_append_right _ mem_cons_self, rfl⟩

theorem aclValid_base (h : aclValid acl = true) : aclValid (base acl) = true := by
  obtain ⟨hm, hu, hg, ho⟩ := aclValid_iff.mp h
  have hbase : ∀ {t}, isBase t = true → hasTag t acl = true → hasTag t (base acl) = true := by
    intro t ht htag
    obtain ⟨e, he, rfl⟩ := hasTag_iff.mp htag
    exact hasTag_iff.mpr ⟨e, mem_base.mpr ⟨he, ht⟩, rfl⟩
  refine aclValid_iff.mpr ⟨⟨hm.nodup.sublist (filter_sublist.map _), ?_⟩, hbase rfl hu,
    hbase rfl hg, hbase rfl ho⟩
  intro e he hnamed
  have hnot := not_isBase_of_named hnamed
  rw [(mem_base.mp he).2] at hnot
  cases hnot

/-- The access ACL that comes back. -/
def rewritten (acl : List PosixEntry) : List PosixEntry := aclCalcMask (base acl ++ kept acl)

theorem mapAces_spec (h : n.OneToOne) (f : File) : ∃ aces, getAndMapAcl n f = some aces ∧
      aces.length = (namedOf f.default).length + (namedOf f.access).length ∧
      aces.foldlM (mapAce n) ⟨if f.isDir then some (base f.access) else none, base f.access,
          false, 0⟩ =
        some ⟨if f.isDir then some (base f.access ++ kept f.default) else none,
          base f.access ++ kept f.access, !(kept f.default).isEmpty,
          (kept f.default).length + (kept f.access).length⟩ := by
  have hfresh : ∀ {acl : List PosixEntry}, ∀ e ∈ namedOf acl,
      e.tag ∉ (base f.access).map tag := by
    intro acl e he hmem
    obtain ⟨e', he', heq⟩ := List.mem_map.mp hmem
    have hnot := not_isBase_of_named (mem_filter.mp he).2
    rw [← heq, (mem_base.mp he').2] at hnot
    cases hnot
  have hnodup : ∀ {acl : List PosixEntry}, Masked acl → ((namedOf acl).map tag).Nodup :=
    fun hm => hm.nodup.sublist (filter_sublist.map _)
  have haccess : AclType.access ≠ AclType.default := by decide
  obtain ⟨accaces, hacc, hallacc⟩ := mapAclPosixToDarwin_spec h .access f.isDir f.access_masked
  cases hdir : f.isDir with
  | false =>
    have hdef := f.default_dir hdir
    rw [hdir] at hacc hallacc
    refine ⟨accaces, ?_, ?_, ?_⟩
    · simp [getAndMapAcl, hdir, hacc]
    · rw [hallacc.length_eq.symm, hdef]
      simp [namedOf]
    · rw [foldlM_mapAce hallacc (hnodup f.access_masked) rfl (absurd · haccess) hfresh, hdef]
      simp [Mapped.put, kept, namedOf]
  | true =>
    rw [hdir] at hacc hallacc
    obtain ⟨defaces, hdef, halldef⟩ := mapAclPosixToDarwin_spec h .default true f.default_masked
    refine ⟨defaces ++ accaces, ?_, ?_, ?_⟩
    · simp [getAndMapAcl, hdir, hacc, hdef]
    · rw [length_append, ← halldef.length_eq, ← hallacc.length_eq]
    · rw [foldlM_append,
        foldlM_mapAce halldef (hnodup f.default_masked) rfl (fun _ => rfl) hfresh]
      show foldlM (mapAce n) _ accaces = _
      rw [foldlM_mapAce hallacc (hnodup f.access_masked) rfl (absurd · haccess) hfresh]
      simp [Mapped.put, kept]

theorem setDefault_spec (m : Mapped) (hasDefault : Bool) (f : File)
    (hd : ∀ d, m.default = some d →
      f.isDir = true ∧ aclValid (if m.extDefault then aclCalcMask d else d) = true) :
    (setDefault m hasDefault f).1 = .ok ∧ (setDefault m hasDefault f).2.access = f.access ∧
      (setDefault m hasDefault f).2.uid = f.uid ∧ (setDefault m hasDefault f).2.gid = f.gid := by
  fun_cases setDefault m hasDefault f with
  | case3 d hm _ _ hno => exact absurd (hd d hm) hno
  | _ => exact ⟨rfl, rfl, rfl, rfl⟩

/-- Sending back what was read fails if nothing comes back, and else writes the ACL that comes
back. -/
theorem setAcl_spec (h : n.OneToOne) (f : File)
    (hnamed : ∃ e ∈ f.default ++ f.access, e.tag.named = true) :
    ∃ aces, getAndMapAcl n f = some aces ∧
      if kept f.default ++ kept f.access = [] then setAcl n f aces = (.misc, f)
      else (setAcl n f aces).1 = .ok ∧ (setAcl n f aces).2.access = rewritten f.access ∧
        (setAcl n f aces).2.uid = f.uid ∧ (setAcl n f aces).2.gid = f.gid := by
  obtain ⟨aces, hread, hlen, hmap⟩ := mapAces_spec h f
  refine ⟨aces, hread, ?_⟩
  have hpos : 0 < aces.length := by
    obtain ⟨e, he, ht⟩ := hnamed
    rw [hlen, ← length_append]
    refine length_pos_of_mem (a := e) ?_
    simpa [namedOf, ht] using he
  have hcount : (kept f.default).length + (kept f.access).length = 0 ↔
      kept f.default ++ kept f.access = [] := by
    rw [← length_append, length_eq_zero_iff]
  rw [setAcl, mapAcesDarwinToPosix, hmap]
  simp only [bind, bind_some, hpos, hcount, true_and]
  by_cases hkept : kept f.default ++ kept f.access = []
  · rw [if_pos hkept, if_pos hkept]
  · rw [if_neg hkept, if_neg hkept]
    dsimp only
    rw [dif_pos (aclValid_rewritten f.access_valid f.access_masked)]
    apply setDefault_spec
    intro d hd
    split_ifs at hd with hdir
    cases hd
    refine ⟨hdir, ?_⟩
    cases hempty : kept f.default with
    | nil =>
      rw [append_nil]
      exact aclValid_base f.access_valid
    | cons =>
      have hvalid := aclValid_rewritten f.access_valid f.default_masked
      rw [hempty] at hvalid
      exact hvalid

/-! ### What the access check then grants -/

theorem gathered_kept :
    gathered p (kept acl) = limit acl (gathered (fun t => t.named && p t) acl) := by
  ext x
  simp only [mem_gathered, mem_kept, mem_limit, Bool.and_eq_true]
  constructor
  · rintro ⟨_, ⟨e, he, hnamed, -, rfl⟩, hp, hx⟩
    obtain ⟨hx, hmask⟩ := mem_limit.mp hx
    exact ⟨⟨e, he, ⟨hnamed, hp⟩, hx⟩, hmask⟩
  · rintro ⟨⟨e, he, ⟨hnamed, hp⟩, hx⟩, hmask⟩
    have hlimit : x ∈ limit acl e.perms := mem_limit.mpr ⟨hx, hmask⟩
    exact ⟨_, ⟨e, he, hnamed, Finset.ne_empty_of_mem hlimit, rfl⟩, hp, hlimit⟩

theorem gathered_aclCalcMask (hp : p .mask = false) (l : List PosixEntry) :
    gathered p (aclCalcMask l) = gathered p l := by
  have hfilter := gathered_filter p (fun t => decide (t ≠ .mask)) l
  have hmask : gathered p [⟨.mask, gathered groupClass l⟩] = ∅ := by simp [gathered, hp]
  rw [aclCalcMask, gathered_append, hmask, Finset.union_empty, hfilter]
  apply gathered_congr
  intro e _
  by_cases he : e.tag = .mask
  · simp [he, hp]
  · simp [he]

/-- The base entries give what they gave, and the named ones what the mask let pass. -/
theorem gathered_rewritten (hp : p .mask = false) :
    gathered p (rewritten acl) = gathered (fun t => isBase t && p t) acl ∪
      limit acl (gathered (fun t => t.named && p t) acl) := by
  rw [rewritten, gathered_aclCalcMask hp, gathered_append, base, gathered_filter, gathered_kept]

theorem gathered_split (hp : p .mask = false) :
    gathered p acl = gathered (fun t => isBase t && p t) acl ∪
      gathered (fun t => t.named && p t) acl := by
  apply gathered_union
  intro t
  cases t <;> simp [isBase, Tag.named, hp]

theorem gathered_rewritten_base (hp : ∀ t, p t = true → isBase t = true) :
    gathered p (rewritten acl) = gathered p acl := by
  have hnone : gathered (fun t => t.named && p t) acl = ∅ := by
    apply gathered_eq_empty
    rintro ⟨t, _⟩ _
    have := hp t
    cases t <;> simp_all [isBase, Tag.named]
  rw [gathered_rewritten (by simpa [isBase] using hp .mask), hnone, limit_empty, Finset.union_empty]
  apply gathered_congr
  intro e _
  simpa using hp e.tag

theorem gathered_rewritten_named (hp : ∀ t, p t = true → t.named = true) :
    gathered p (rewritten acl) = limit acl (gathered p acl) := by
  have hnone : gathered (fun t => isBase t && p t) acl = ∅ := by
    apply gathered_eq_empty
    rintro ⟨t, _⟩ _
    have := hp t
    cases t <;> simp_all [isBase, Tag.named]
  rw [gathered_rewritten (by simpa [Tag.named] using hp .mask), hnone, Finset.empty_union]
  congr 1
  apply gathered_congr
  intro e _
  simpa using hp e.tag

theorem permsOf_rewritten_base (ht : isBase t = true) : permsOf t (rewritten acl) = permsOf t acl :=
  gathered_rewritten_base (by simp [ht])

theorem permsOf_rewritten_named (ht : t.named = true) :
    permsOf t (rewritten acl) = limit acl (permsOf t acl) :=
  gathered_rewritten_named (by simp [ht])

/-- The computed mask lets everything pass. -/
theorem limit_rewritten (hp : ∀ t, p t = true → groupClass t = true) :
    limit (rewritten acl) (gathered p (rewritten acl)) = gathered p (rewritten acl) := by
  have hmask : p .mask = false := by
    cases h : p .mask with
    | false => rfl
    | true => cases hp _ h
  apply Finset.Subset.antisymm (limit_subset _ _)
  intro x hx
  refine mem_limit.mpr ⟨hx, fun _ => ?_⟩
  rw [rewritten, gathered_aclCalcMask hmask] at hx
  obtain ⟨e, he, ht, hx⟩ := mem_gathered.mp hx
  rw [permsOf, mem_gathered]
  exact ⟨_, mem_append_right _ mem_cons_self, decide_eq_true rfl,
    mem_gathered.mpr ⟨e, he, hp _ ht, hx⟩⟩

theorem hasTag_rewritten (ht : t.named = true) (hn : (acl.map tag).Nodup) :
    hasTag t (rewritten acl) = true ↔ hasTag t acl = true ∧ limit acl (permsOf t acl) ≠ ∅ := by
  have hnot := not_isBase_of_named ht
  simp only [hasTag_iff, rewritten, aclCalcMask, mem_append, mem_filter]
  constructor
  · rintro ⟨e, (⟨he | he, _⟩ | he), rfl⟩
    · rw [(mem_base.mp he).2] at hnot
      cases hnot
    · obtain ⟨e', he', _, hpass, rfl⟩ := mem_kept.mp he
      exact ⟨⟨e', he', rfl⟩, by rwa [permsOf_eq_of_mem hn he']⟩
    · rw [mem_singleton.mp he] at ht
      cases ht
  · rintro ⟨⟨e, he, rfl⟩, hpass⟩
    rw [permsOf_eq_of_mem hn he] at hpass
    refine ⟨_, .inl ⟨.inr (mem_kept.mpr ⟨e, he, ht, hpass, rfl⟩), decide_eq_true ?_⟩, rfl⟩
    intro hmask
    rw [hmask] at ht
    cases ht

section
variable {acl : List PosixEntry} (owning : ℕ) (groups : List ℕ)

/-- What the group class gives a member of the groups, the owning group and the named groups. -/
theorem gathered_inGroups : gathered (·.inGroups owning groups) acl =
      (if owning ∈ groups then permsOf .groupObj acl else ∅) ∪
        gathered (fun t => t.named && t.inGroups owning groups) acl := by
  rw [gathered_split rfl]
  congr 1
  split_ifs with h
  · apply gathered_congr
    rintro ⟨t, _⟩ _
    cases t <;> simp [isBase, Tag.inGroups, h]
  · apply gathered_eq_empty
    rintro ⟨t, _⟩ _
    cases t <;> simp [isBase, Tag.inGroups, h]

end

/-- Some entry comes back; the mask does not limit the owning group; a named user left without
permissions finds none behind the entry; and a named group without permissions none of all
others. -/
structure RoundTrips (f : File) : Prop where
  kept : kept f.default ++ kept f.access ≠ []
  owning : limit f.access (permsOf .groupObj f.access) = permsOf .groupObj f.access
  user : ∀ uid ≠ f.uid, hasTag (.user uid) f.access = true →
    limit f.access (permsOf (.user uid) f.access) = ∅ →
      permsOf .other f.access = ∅ ∧ permsOf .groupObj f.access = ∅ ∧
        ∀ gid, limit f.access (permsOf (.group gid) f.access) = ∅
  group : ∀ gid ≠ f.gid, hasTag (.group gid) f.access = true →
    limit f.access (permsOf (.group gid) f.access) = ∅ → permsOf .other f.access = ∅

theorem File.hasTag_groupObj (f : File) :
    hasTag .groupObj f.access = true ∧ hasTag .groupObj (rewritten f.access) = true :=
  ⟨(aclValid_iff.mp f.access_valid).2.2.1,
    (aclValid_iff.mp (aclValid_rewritten f.access_valid f.access_masked)).2.2.1⟩

theorem limit_inGroups_rewritten (owning : ℕ) (groups : List ℕ) :
    limit (rewritten acl) (gathered (·.inGroups owning groups) (rewritten acl)) =
      (if owning ∈ groups then permsOf .groupObj acl else ∅) ∪
        limit acl (gathered (fun t => t.named && t.inGroups owning groups) acl) := by
  rw [limit_rewritten _, gathered_inGroups, permsOf_rewritten_base rfl,
    gathered_rewritten_named (by simp +contextual)]
  intro t ht
  cases t <;> first | rfl | cases ht

theorem limit_user_rewritten : limit (rewritten acl) (permsOf (.user uid) (rewritten acl)) =
      limit acl (permsOf (.user uid) acl) := by
  rw [permsOf, limit_rewritten _, ← permsOf, permsOf_rewritten_named rfl]
  intro t ht
  rw [of_decide_eq_true ht]
  rfl

/-- A named entry that does not come back gave nothing. -/
theorem limit_eq_empty_of_gone (ht : t.named = true) (hgone : ¬hasTag t (rewritten acl) = true) :
    limit acl (permsOf t acl) = ∅ := by
  rw [← permsOf_rewritten_named ht]
  apply gathered_eq_empty
  intro e he htag
  exact absurd (hasTag_iff.mpr ⟨e, he, of_decide_eq_true htag⟩) hgone

theorem limit_groups_eq_empty {groups : List ℕ} (owning : ℕ)
    (h : ∀ gid ∈ groups, limit acl (permsOf (.group gid) acl) = ∅) :
    limit acl (gathered (fun t => t.named && t.inGroups owning groups) acl) = ∅ := by
  apply Finset.eq_empty_of_forall_notMem
  intro x hx
  obtain ⟨hx, hmask⟩ := mem_limit.mp hx
  obtain ⟨⟨t, perms⟩, he, htag, hx⟩ := mem_gathered.mp hx
  cases t with
  | group gid =>
    have hpass : x ∈ limit acl (permsOf (.group gid) acl) :=
      mem_limit.mpr ⟨mem_gathered.mpr ⟨_, he, decide_eq_true rfl, hx⟩, hmask⟩
    rw [h gid (of_decide_eq_true htag)] at hpass
    exact Finset.notMem_empty x hpass
  | userObj | user | groupObj | mask | other => cases htag

theorem not_named_rewritten {f : File} (h : ¬hasTag (.user uid) f.access = true) :
    ¬hasTag (.user uid) (rewritten f.access) = true :=
  fun hu => h ((hasTag_rewritten rfl f.access_masked.nodup).mp hu).1

theorem not_hasTag_rewritten {f : File} (ht : t.named = true)
    (hpass : limit f.access (permsOf t f.access) = ∅) : ¬hasTag t (rewritten f.access) = true :=
  fun hu => ((hasTag_rewritten ht f.access_masked.nodup).mp hu).2 hpass

theorem RoundTrips.granted_eq {f : File} (h : RoundTrips f) (groups : List ℕ) :
    granted (rewritten f.access) f.uid f.gid uid groups =
      granted f.access f.uid f.gid uid groups := by
  have htag {t : Tag ℕ ℕ} (ht : t.named = true) := hasTag_rewritten ht f.access_masked.nodup
  have hin := any_inGroups f.hasTag_groupObj.1 f.gid groups
  have hin' := any_inGroups f.hasTag_groupObj.2 f.gid groups
  by_cases howner : uid = f.uid
  · rw [howner, granted_owner, granted_owner, permsOf_rewritten_base rfl]
  by_cases huser : hasTag (.user uid) f.access = true
  · rw [granted_user howner huser]
    by_cases hpass : limit f.access (permsOf (.user uid) f.access) = ∅
    · -- the entry is gone, and there is nothing behind it
      obtain ⟨hother, howning, hgroups⟩ := h.user uid howner huser hpass
      have hgone := not_hasTag_rewritten rfl hpass
      rw [hpass]
      by_cases hgroup : (rewritten f.access).any (·.tag.inGroups f.gid groups) = true
      · rw [granted_group howner hgone hgroup, limit_inGroups_rewritten, howning, ite_self,
          limit_groups_eq_empty _ fun gid _ => hgroups gid, Finset.empty_union]
      · rw [granted_other howner hgone hgroup, permsOf_rewritten_base rfl, hother]
    · rw [granted_user howner ((htag rfl).mpr ⟨huser, hpass⟩), limit_user_rewritten]
  · have hgone := not_named_rewritten huser
    by_cases hgroup' : (rewritten f.access).any (·.tag.inGroups f.gid groups) = true
    · have hgroup : f.access.any (·.tag.inGroups f.gid groups) = true :=
        hin.mpr ((hin'.mp hgroup').imp_right
          (Exists.imp fun gid => And.imp_right fun ht => ((htag rfl).mp ht).1))
      rw [granted_group howner hgone hgroup', granted_group howner huser hgroup,
        limit_inGroups_rewritten, gathered_inGroups, limit_union]
      congr 1
      split_ifs
      · exact h.owning.symm
      · exact (limit_empty _).symm
    · rw [granted_other howner hgone hgroup', permsOf_rewritten_base rfl]
      by_cases hgroup : f.access.any (·.tag.inGroups f.gid groups) = true
      · -- only emptied entries were for the groups
        rw [hin', not_or, not_exists] at hgroup'
        obtain ⟨howning, hgone'⟩ := hgroup'
        have hempty : ∀ gid ∈ groups, limit f.access (permsOf (.group gid) f.access) = ∅ :=
          fun gid hgid => limit_eq_empty_of_gone rfl fun ht => hgone' gid ⟨hgid, ht⟩
        obtain ⟨gid, hgid, ht⟩ := (hin.mp hgroup).resolve_left howning
        have hne : gid ≠ f.gid := fun heq => howning (heq ▸ hgid)
        rw [granted_group howner huser hgroup, gathered_inGroups, if_neg howning,
          Finset.empty_union, limit_groups_eq_empty _ hempty, h.group gid hne ht (hempty gid hgid)]
      · rw [granted_other howner huser hgroup]

theorem exists_unnamed (f : File) : ∃ uid ≠ f.uid, ¬hasTag (.user uid) f.access = true := by
  have hfinite : ({f.uid} ∪ {uid : ℕ | Tag.user uid ∈ f.access.map tag}).Finite := by
    refine (Set.finite_singleton _).union ((finite_toSet _).preimage ?_)
    intro uid _ uid' _ heq
    exact Tag.user.inj heq
  obtain ⟨uid, huid⟩ := hfinite.infinite_compl.nonempty
  refine ⟨uid, fun heq => huid (.inl heq), fun htag => huid (.inr ?_)⟩
  obtain ⟨e, he, ht⟩ := hasTag_iff.mp htag
  exact List.mem_map.mpr ⟨e, he, ht⟩

section
variable {f : File} (h : ∀ uid groups, granted (rewritten f.access) f.uid f.gid uid groups =
  granted f.access f.uid f.gid uid groups)
include h

theorem limit_groupObj_of_granted_eq :
    limit f.access (permsOf .groupObj f.access) = permsOf .groupObj f.access := by
  obtain ⟨stranger, hstranger, hunnamed⟩ := exists_unnamed f
  have hmember : f.gid ∈ [f.gid] := mem_singleton_self f.gid
  have hgroup := (any_inGroups f.hasTag_groupObj.1 f.gid _).mpr (.inl hmember)
  have hgroup' := (any_inGroups f.hasTag_groupObj.2 f.gid _).mpr (.inl hmember)
  have hsame := h stranger [f.gid]
  rw [granted_group hstranger hunnamed hgroup,
    granted_group hstranger (not_named_rewritten hunnamed) hgroup', limit_inGroups_rewritten,
    gathered_inGroups, limit_union, if_pos hmember] at hsame
  apply Finset.Subset.antisymm (limit_subset _ _)
  intro x hx
  have hx' := Finset.mem_union_left (limit f.access (gathered
    (fun t => t.named && t.inGroups f.gid [f.gid]) f.access)) hx
  rw [hsame, Finset.mem_union] at hx'
  rcases hx' with hx' | hx'
  · exact hx'
  · exact mem_limit.mpr ⟨hx, (mem_limit.mp hx').2⟩

/-- An emptied entry for a user shields from everything behind it. -/
theorem behind_user_of_granted_eq (howner : uid ≠ f.uid)
    (huser : hasTag (.user uid) f.access = true)
    (hpass : limit f.access (permsOf (.user uid) f.access) = ∅) :
    permsOf .other f.access = ∅ ∧ permsOf .groupObj f.access = ∅ ∧
      ∀ gid, limit f.access (permsOf (.group gid) f.access) = ∅ := by
  have hgone := not_hasTag_rewritten rfl hpass
  have hin := any_inGroups f.hasTag_groupObj.2 f.gid
  have hnothing : ∀ groups, granted (rewritten f.access) f.uid f.gid uid groups = ∅ := by
    intro groups
    rw [h, granted_user howner huser, hpass]
  have hgroups : ∀ groups, (rewritten f.access).any (·.tag.inGroups f.gid groups) = true →
      (if f.gid ∈ groups then permsOf .groupObj f.access else ∅) = ∅ ∧
      limit f.access (gathered (fun t => t.named && t.inGroups f.gid groups) f.access) = ∅ := by
    intro groups hgroup
    have hempty := hnothing groups
    rwa [granted_group howner hgone hgroup, limit_inGroups_rewritten, Finset.union_eq_empty]
      at hempty
  refine ⟨?_, ?_, fun gid => Finset.eq_empty_of_forall_notMem fun x hx => ?_⟩
  · have hempty := hnothing []
    rwa [granted_other howner hgone (by simp [hin]), permsOf_rewritten_base rfl] at hempty
  · have hmember : f.gid ∈ [f.gid] := mem_singleton_self f.gid
    have hempty := (hgroups [f.gid] ((hin _).mpr (.inl hmember))).1
    rwa [if_pos hmember] at hempty
  · have hback : hasTag (.group gid) (rewritten f.access) = true := by
      by_contra hgone
      rw [limit_eq_empty_of_gone rfl hgone] at hx
      exact Finset.notMem_empty x hx
    have hempty := (hgroups [gid] ((hin _).mpr (.inr ⟨gid, mem_singleton_self gid, hback⟩))).2
    obtain ⟨hx, hmask⟩ := mem_limit.mp hx
    obtain ⟨e, he, ht, hx⟩ := mem_gathered.mp hx
    have hnamed : (e.tag.named && e.tag.inGroups f.gid [gid]) = true := by
      rw [of_decide_eq_true ht]
      simp [Tag.named, Tag.inGroups]
    have hmem : x ∈ limit f.access
        (gathered (fun t => t.named && t.inGroups f.gid [gid]) f.access) :=
      mem_limit.mpr ⟨mem_gathered.mpr ⟨e, he, hnamed, hx⟩, hmask⟩
    rw [hempty] at hmem
    exact Finset.notMem_empty x hmem

/-- An emptied entry for a group shields its members from what all others have. -/
theorem behind_group_of_granted_eq {gid : ℕ} (hne : gid ≠ f.gid)
    (hgroup : hasTag (.group gid) f.access = true)
    (hpass : limit f.access (permsOf (.group gid) f.access) = ∅) : permsOf .other f.access = ∅ := by
  obtain ⟨stranger, hstranger, hunnamed⟩ := exists_unnamed f
  have hmember : gid ∈ [gid] := mem_singleton_self gid
  have howning : f.gid ∉ [gid] := fun hmem => hne (mem_singleton.mp hmem).symm
  have hgroups := (any_inGroups f.hasTag_groupObj.1 f.gid _).mpr (.inr ⟨gid, hmember, hgroup⟩)
  have hgroups' : ¬(rewritten f.access).any (·.tag.inGroups f.gid [gid]) = true := by
    rw [any_inGroups f.hasTag_groupObj.2]
    rintro (hmem | ⟨gid', hgid', ht⟩)
    · exact howning hmem
    · rw [mem_singleton.mp hgid'] at ht
      exact not_hasTag_rewritten rfl hpass ht
  have hempty : ∀ gid' ∈ [gid], limit f.access (permsOf (.group gid') f.access) = ∅ := by
    intro gid' hgid'
    rw [mem_singleton.mp hgid', hpass]
  have hsame := h stranger [gid]
  rwa [granted_group hstranger hunnamed hgroups,
    granted_other hstranger (not_named_rewritten hunnamed) hgroups', permsOf_rewritten_base rfl,
    gathered_inGroups, if_neg howning, Finset.empty_union, limit_groups_eq_empty _ hempty] at hsame

end

/-- Sent back as it was read, an ACL with a named entry is taken and leaves everyone's permissions
as they were exactly if the emptied entries and the mask make no difference. -/
theorem setAcl_getAndMapAcl_iff (h : n.OneToOne) (f : File)
    (hnamed : ∃ e ∈ f.default ++ f.access, e.tag.named = true) :
    (∃ aces, getAndMapAcl n f = some aces ∧ (setAcl n f aces).1 = .ok ∧
      ∀ uid groups,
        granted (setAcl n f aces).2.access (setAcl n f aces).2.uid (setAcl n f aces).2.gid uid
            groups =
          granted f.access f.uid f.gid uid groups) ↔ RoundTrips f := by
  obtain ⟨aces, hread, hset⟩ := setAcl_spec h f hnamed
  constructor
  · rintro ⟨aces', hread', hok, hsame⟩
    obtain rfl : aces = aces' := some.inj (hread.symm.trans hread')
    split_ifs at hset with hkept
    · rw [hset] at hok
      cases hok
    · obtain ⟨-, haccess, huid, hgid⟩ := hset
      rw [haccess, huid, hgid] at hsame
      exact ⟨hkept, limit_groupObj_of_granted_eq hsame,
        fun uid => behind_user_of_granted_eq hsame, fun gid => behind_group_of_granted_eq hsame⟩
  · intro hround
    rw [if_neg hround.kept] at hset
    obtain ⟨hok, haccess, huid, hgid⟩ := hset
    refine ⟨aces, hread, hok, fun uid groups => ?_⟩
    rw [haccess, huid, hgid]
    exact hround.granted_eq groups

/-- Accounts whose names and UUIDs are the ids. -/
def plainAccounts : Accounts ℕ (ℕ × UuidType) where
  getpwuid := some
  getpwnam := some
  getgrgid := some
  getgrnam := some
  getuuidfromname name type := some (name, type)
  getnamefromuuid := some

theorem plainAccounts_oneToOne : plainAccounts.OneToOne where
  user uid := ⟨uid, (uid, .user), rfl, rfl, rfl, rfl⟩
  group gid := ⟨gid, (gid, .group), rfl, rfl, rfl, rfl⟩

/-- A file that the user 1000 and the owning group may read. -/
def readable : File where
  isDir := false
  uid := 0
  gid := 0
  access := [⟨.userObj, {.read, .write}⟩, ⟨.user 1000, {.read}⟩, ⟨.groupObj, {.read}⟩,
    ⟨.mask, {.read}⟩, ⟨.other, ∅⟩]
  default := []
  access_valid := by decide
  default_valid := .inl rfl
  default_dir := fun _ => rfl

theorem roundTrips_readable : RoundTrips readable := by
  refine ⟨by decide, by decide, ?_, ?_⟩
  · intro uid _ htag hpass
    obtain rfl : 1000 = uid := by simpa [hasTag, readable] using htag
    exact absurd hpass (by decide)
  · intro gid _ htag
    simp [hasTag, readable] at htag

/-- The file comes back as it was. -/
theorem setAcl_getAndMapAcl_readable : ∃ aces, getAndMapAcl plainAccounts readable = some aces ∧
      (setAcl plainAccounts readable aces).1 = .ok ∧
      ∀ uid groups, granted (setAcl plainAccounts readable aces).2.access
          (setAcl plainAccounts readable aces).2.uid (setAcl plainAccounts readable aces).2.gid uid
            groups =
        granted readable.access readable.uid readable.gid uid groups :=
  (setAcl_getAndMapAcl_iff plainAccounts_oneToOne readable (by decide)).mpr roundTrips_readable

/-- A file that the user 1001 may not read, the user 1000 and all others may. -/
def shutOut : File where
  isDir := false
  uid := 0
  gid := 0
  access := [⟨.userObj, {.read, .write}⟩, ⟨.user 1000, {.read}⟩, ⟨.user 1001, ∅⟩,
    ⟨.groupObj, {.read}⟩, ⟨.mask, {.read}⟩, ⟨.other, {.read}⟩]
  default := []
  access_valid := by decide
  default_valid := .inl rfl
  default_dir := fun _ => rfl

/-- Sent back, its ACL has lost the entry of the user 1001, who may now read it. -/
theorem setAcl_getAndMapAcl_shutOut : ∃ aces, getAndMapAcl plainAccounts shutOut = some aces ∧
      (setAcl plainAccounts shutOut aces).1 = .ok ∧
      granted shutOut.access 0 0 1001 [100] = ∅ ∧
      granted (setAcl plainAccounts shutOut aces).2.access 0 0 1001 [100] = {.read} :=
  ⟨[⟨(1000, .user), aceFlags .access, posixPermsetToDarwinRights {.read} false⟩,
    ⟨(1001, .user), aceFlags .access, 0⟩], by decide, by decide, by decide, by decide⟩

end Netatalk.AclRoundTrip
