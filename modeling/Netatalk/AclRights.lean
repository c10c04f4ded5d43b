import Netatalk.PosixAcl

/-! # The rights `posix_acl_rights` reports

`posix_acl_rights` (`etc/afpd/acls.c`) answers `FPAccess` on a system with POSIX ACLs.  It walks the
entries once and gathers what each entry that matches the user gives, the mask being applied to the
sum at the end.  The access check instead consults the entries of one class only.

The walk reports the union over all classes (`posixAclRights_eq`), so it is right exactly for those
users to whom the entries that the check passes over (`passedOver`) give nothing more. -/

namespace Netatalk.AclRights

open List PosixAcl Finset

/-! ### Darwin rights -/

def darwinAceReadData : UInt32 := 0x00000002
def darwinAceWriteData : UInt32 := 0x00000004
def darwinAceExecute : UInt32 := 0x00000008
def darwinAceAppendData : UInt32 := 0x00000020
def darwinAceDeleteChild : UInt32 := 0x00000040
def darwinAceReadAttributes : UInt32 := 0x00000080
def darwinAceWriteAttributes : UInt32 := 0x00000100
def darwinAceReadExtattributes : UInt32 := 0x00000200
def darwinAceWriteExtattributes : UInt32 := 0x00000400
def darwinAceReadSecurity : UInt32 := 0x00000800

/-- `posix_permset_to_darwin_rights`. -/
def posixPermsetToDarwinRights (permset : Finset Access) (isDir : Bool) : UInt32 :=
  let rights := if .read ∈ permset then
      darwinAceReadData ||| darwinAceReadExtattributes ||| darwinAceReadAttributes |||
        darwinAceReadSecurity
    else 0
  let rights := if .write ∈ permset then
      let rights := rights ||| (darwinAceWriteData ||| darwinAceAppendData |||
        darwinAceWriteExtattributes ||| darwinAceWriteAttributes)
      if isDir then rights ||| darwinAceDeleteChild else rights
    else rights
  if .execute ∈ permset then rights ||| darwinAceExecute else rights

/-- `map_darwin_right_to_posix_permset`. -/
def mapDarwinRightToPosixPermset (rights : UInt32) (isDir : Bool) : Finset Access :=
  let perm := if rights &&& darwinAceReadData ≠ 0 then {.read} else ∅
  let perm := if rights &&& (darwinAceWriteData ||| if isDir then darwinAceDeleteChild else 0) ≠ 0
    then perm ∪ {.write} else perm
  if rights &&& darwinAceExecute ≠ 0 then perm ∪ {.execute} else perm

/-! There are eight sets of permissions, so the laws of the mapping are checked on all of them. -/

theorem darwinRights_union : ∀ (p q : Finset Access) (d : Bool),
    posixPermsetToDarwinRights (p ∪ q) d =
      posixPermsetToDarwinRights p d ||| posixPermsetToDarwinRights q d := by
  decide

theorem darwinRights_inter : ∀ (p q : Finset Access) (d : Bool),
    posixPermsetToDarwinRights (p ∩ q) d =
      posixPermsetToDarwinRights p d &&& posixPermsetToDarwinRights q d := by
  decide

@[simp] theorem mapDarwinRight_darwinRights : ∀ (p : Finset Access) (d : Bool),
    mapDarwinRightToPosixPermset (posixPermsetToDarwinRights p d) d = p := by
  decide

theorem darwinRights_injective {d : Bool} {p q : Finset Access}
    (h : posixPermsetToDarwinRights p d = posixPermsetToDarwinRights q d) : p = q := by
  rw [← mapDarwinRight_darwinRights p d, h, mapDarwinRight_darwinRights]

/-! ### The walk -/

/-- The user and the groups of the session. -/
structure Session where
  uid : ℕ
  groups : List ℕ

/-- `struct stat`, as far as the function reads it. -/
structure Stat where
  uid : ℕ
  gid : ℕ
  isDir : Bool

/-- `gmem`. -/
def gmem (gid : ℕ) (groups : List ℕ) : Bool := gid ∈ groups

/-- The sums of `posix_acl_rights`: what the mask does not limit, what it limits, and the mask. -/
structure Sums where
  rights : UInt32
  aclRights : UInt32
  maskRights : UInt32

/-- The body of the loop of `posix_acl_rights`. -/
def addEntry (obj : Session) (sb : Stat) (s : Sums) (e : Entry ℕ ℕ) : Sums :=
  match e.tag with
  | .userObj =>
    if sb.uid = obj.uid then
      { s with rights := s.rights ||| posixPermsetToDarwinRights e.perms sb.isDir }
    else s
  | .user uid =>
    if uid = obj.uid then
      { s with aclRights := s.aclRights ||| posixPermsetToDarwinRights e.perms sb.isDir }
    else s
  | .groupObj =>
    if !(sb.uid = obj.uid) && gmem sb.gid obj.groups then
      { s with aclRights := s.aclRights ||| posixPermsetToDarwinRights e.perms sb.isDir }
    else s
  | .group gid =>
    if gmem gid obj.groups then
      { s with aclRights := s.aclRights ||| posixPermsetToDarwinRights e.perms sb.isDir }
    else s
  | .mask => { s with maskRights := posixPermsetToDarwinRights e.perms sb.isDir }
  | .other =>
    if !(sb.uid = obj.uid) && !gmem sb.gid obj.groups then
      { s with rights := s.rights ||| posixPermsetToDarwinRights e.perms sb.isDir }
    else s

/-- `posix_acl_rights`, where `acl` is the answer of `acl_get_file`. -/
def posixAclRights (obj : Session) (sb : Stat) (acl : Option (List (Entry ℕ ℕ)))
    (result : UInt32) : Option UInt32 := do
  let acl ← acl
  let s := acl.foldl (addEntry obj sb) ⟨0, 0, 0xffffffff⟩
  return result ||| (s.rights ||| (s.aclRights &&& s.maskRights))

/-! ### What it reports -/

/-- The entries it takes without the mask. -/
def plain (obj : Session) (sb : Stat) : Tag ℕ ℕ → Bool
  | .userObj => sb.uid = obj.uid
  | .other => !(sb.uid = obj.uid) && !gmem sb.gid obj.groups
  | _ => false

/-- The entries it takes under the mask. -/
def limited (obj : Session) (sb : Stat) : Tag ℕ ℕ → Bool
  | .user uid => uid = obj.uid
  | .groupObj => !(sb.uid = obj.uid) && gmem sb.gid obj.groups
  | .group gid => gmem gid obj.groups
  | _ => false

/-- The mask after the walk: the last one there is. -/
def lastMask (isDir : Bool) : List (Entry ℕ ℕ) → UInt32 → UInt32
  | [], m => m
  | e :: l, m => lastMask isDir l (if e.tag = .mask then posixPermsetToDarwinRights e.perms isDir
      else m)

/-- One step adds what the entry gives to the sum the entry counts in. -/
theorem addEntry_eq (obj : Session) (sb : Stat) (s : Sums) (e : Entry ℕ ℕ) : addEntry obj sb s e =
      ⟨if plain obj sb e.tag then s.rights ||| posixPermsetToDarwinRights e.perms sb.isDir
          else s.rights,
        if limited obj sb e.tag then s.aclRights ||| posixPermsetToDarwinRights e.perms sb.isDir
          else s.aclRights,
        if e.tag = .mask then posixPermsetToDarwinRights e.perms sb.isDir else s.maskRights⟩ := by
  obtain ⟨t, perms⟩ := e
  cases t with
  | mask => rfl
  | userObj => by_cases h : sb.uid = obj.uid <;> simp [addEntry, plain, limited, h]
  | user uid => by_cases h : uid = obj.uid <;> simp [addEntry, plain, limited, h]
  | group gid => cases h : gmem gid obj.groups <;> simp [addEntry, plain, limited, h]
  | groupObj | other =>
    by_cases h : sb.uid = obj.uid
    · simp [addEntry, plain, limited, h]
    · cases hg : gmem sb.gid obj.groups <;> simp [addEntry, plain, limited, h, hg]

theorem or_gathered_cons (p : Tag ℕ ℕ → Bool) (e : Entry ℕ ℕ) (l : List (Entry ℕ ℕ)) (d : Bool)
    (r : UInt32) : r ||| posixPermsetToDarwinRights (gathered p (e :: l)) d =
      (if p e.tag then r ||| posixPermsetToDarwinRights e.perms d else r) |||
        posixPermsetToDarwinRights (gathered p l) d := by
  rw [gathered]
  split_ifs
  · rw [darwinRights_union, UInt32.or_assoc]
  · rfl

theorem foldl_addEntry (obj : Session) (sb : Stat) (l : List (Entry ℕ ℕ)) (s : Sums) :
    l.foldl (addEntry obj sb) s =
      ⟨s.rights ||| posixPermsetToDarwinRights (gathered (plain obj sb) l) sb.isDir,
        s.aclRights ||| posixPermsetToDarwinRights (gathered (limited obj sb) l) sb.isDir,
        lastMask sb.isDir l s.maskRights⟩ := by
  induction l generalizing s with
  | nil =>
    have hnone : posixPermsetToDarwinRights ∅ sb.isDir = 0 := by
      cases sb.isDir <;> rfl
    simp only [foldl_nil, gathered, hnone, UInt32.or_zero, lastMask]
  | cons e l ih =>
    rw [foldl_cons, ih, addEntry_eq, or_gathered_cons, or_gathered_cons, lastMask]

theorem lastMask_eq {l : List (Entry ℕ ℕ)} (hn : (l.map Entry.tag).Nodup) (d : Bool) (m : UInt32) :
    lastMask d l m =
      if hasTag .mask l then posixPermsetToDarwinRights (permsOf .mask l) d else m := by
  induction l generalizing m with
  | nil => rfl
  | cons e l ih =>
    have hperms := permsOf_eq_of_mem hn mem_cons_self
    obtain ⟨hnot, hn⟩ := nodup_cons.mp hn
    rw [lastMask, ih hn]
    by_cases he : e.tag = .mask
    · -- no later entry is a mask
      have hno : hasTag .mask l = false :=
        hasTag_eq_false.mpr fun e' he' ht => hnot (he ▸ ht ▸ List.mem_map_of_mem he')
      rw [he] at hperms
      rw [hno, hperms, hasTag_iff.mpr ⟨e, mem_cons_self, he⟩, he]
      rfl
    · have hsame : hasTag .mask (e :: l) = hasTag .mask l := by simp [hasTag, he]
      have hmask : permsOf .mask (e :: l) = permsOf .mask l := by simp [permsOf, gathered, he]
      rw [hsame, hmask, if_neg he]

/-- With at most one mask, the mask of the walk limits as the check's does. -/
theorem and_lastMask {l : List (Entry ℕ ℕ)} (hn : (l.map Entry.tag).Nodup) (p : Finset Access)
    (d : Bool) : posixPermsetToDarwinRights p d &&& lastMask d l 0xffffffff =
      posixPermsetToDarwinRights (limit l p) d := by
  rw [lastMask_eq hn, limit]
  split_ifs
  · rw [darwinRights_inter]
  · revert p d
    decide

/-- The permissions behind the rights it reports. -/
def reported (obj : Session) (sb : Stat) (l : List (Entry ℕ ℕ)) : Finset Access :=
  gathered (plain obj sb) l ∪ limit l (gathered (limited obj sb) l)

theorem posixAclRights_eq (obj : Session) (sb : Stat) (a : Acl ℕ ℕ) (result : UInt32) :
    posixAclRights obj sb (some a.entries) result =
      some (result ||| posixPermsetToDarwinRights (reported obj sb a.entries) sb.isDir) := by
  have hlimit := and_lastMask a.nodup (gathered (limited obj sb) a.entries) sb.isDir
  simp only [posixAclRights, bind, Option.bind_some, foldl_addEntry, UInt32.zero_or, hlimit,
    reported, darwinRights_union, pure]

/-! ### Against the access check -/

/-- What the entries give that match the user and that the access check passes over, its class of
entries being another. -/
def passedOver (obj : Session) (sb : Stat) (l : List (Entry ℕ ℕ)) : Finset Access :=
  let groups := limit l (gathered (·.inGroups sb.gid obj.groups) l)
  let others := if gmem sb.gid obj.groups then ∅ else permsOf .other l
  match classOf l sb.uid sb.gid obj.uid obj.groups with
  | .owner => limit l (permsOf (.user obj.uid) l ∪
      gathered (fun t => t.named && t.inGroups sb.gid obj.groups) l)
  | .user => groups ∪ others
  | .group => others
  | .other => ∅

section
variable {obj : Session} {sb : Stat} {l : List (Entry ℕ ℕ)}

theorem reported_owner (h : obj.uid = sb.uid) :
    reported obj sb l = permsOf .userObj l ∪ limit l (permsOf (.user obj.uid) l ∪
      gathered (fun t => t.named && t.inGroups sb.gid obj.groups) l) := by
  have hplain : gathered (plain obj sb) l = permsOf .userObj l := by
    apply gathered_congr
    rintro ⟨t, _⟩ _
    cases t <;> simp [plain, h]
  have hlimited : gathered (limited obj sb) l = permsOf (.user obj.uid) l ∪
      gathered (fun t => t.named && t.inGroups sb.gid obj.groups) l := by
    apply gathered_union
    intro t
    cases t <;> simp [limited, Tag.named, Tag.inGroups, gmem, h]
  rw [reported, hplain, hlimited]

theorem reported_of_ne (h : obj.uid ≠ sb.uid) :
    reported obj sb l = (if gmem sb.gid obj.groups then ∅ else permsOf .other l) ∪
      (limit l (permsOf (.user obj.uid) l) ∪
        limit l (gathered (·.inGroups sb.gid obj.groups) l)) := by
  have hplain : gathered (plain obj sb) l =
      if gmem sb.gid obj.groups then ∅ else permsOf .other l := by
    split_ifs with hg
    · apply gathered_eq_empty
      rintro ⟨t, _⟩ _
      cases t <;> simp [plain, hg, h.symm]
    · apply gathered_congr
      rintro ⟨t, _⟩ _
      cases t <;> simp [plain, hg, h.symm]
  have hlimited : gathered (limited obj sb) l = permsOf (.user obj.uid) l ∪
      gathered (·.inGroups sb.gid obj.groups) l := by
    apply gathered_union
    intro t
    cases t <;> simp [limited, Tag.inGroups, gmem, h.symm]
  rw [reported, hplain, hlimited, limit_union]

end

/-- It reports what the access check grants and what the entries give that the check passes over. -/
theorem reported_eq (obj : Session) (sb : Stat) (a : Acl ℕ ℕ) : reported obj sb a.entries =
      granted a.entries sb.uid sb.gid obj.uid obj.groups ∪ passedOver obj sb a.entries := by
  unfold granted passedOver classOf
  by_cases howner : obj.uid = sb.uid
  · rw [reported_owner howner, if_pos howner]
  · rw [reported_of_ne howner, if_neg howner]
    by_cases huser : hasTag (.user obj.uid) a.entries
    · rw [if_pos huser, union_comm, union_assoc]
    · have hnone : permsOf (.user obj.uid) a.entries = ∅ := by
        apply gathered_eq_empty
        intro e he ht
        exact absurd (hasTag_iff.mpr ⟨e, he, of_decide_eq_true ht⟩) huser
      rw [if_neg huser, hnone, limit_empty, empty_union]
      by_cases hgroup : a.entries.any (·.tag.inGroups sb.gid obj.groups)
      · rw [if_pos hgroup, union_comm]
      · have hall : ∀ e ∈ a.entries, e.tag.inGroups sb.gid obj.groups ≠ true := by
          intro e he ht
          exact hgroup (List.any_eq_true.mpr ⟨e, he, ht⟩)
        have hgid : gmem sb.gid obj.groups = false := by
          obtain ⟨e, he, ht⟩ := a.groupObj
          have hno := hall e he
          rw [ht] at hno
          exact Bool.eq_false_iff.mpr hno
        have hgroups : gathered (·.inGroups sb.gid obj.groups) a.entries = ∅ :=
          gathered_eq_empty fun e he ht => absurd ht (hall e he)
        rw [if_neg hgroup, hgroups, limit_empty, hgid]
        rfl

/-- The rights reported to a user are those of the permissions the access check grants exactly when
the entries that match the user and that the check passes over give nothing it does not grant. -/
theorem posixAclRights_exact_iff (obj : Session) (sb : Stat) (a : Acl ℕ ℕ) :
    posixAclRights obj sb (some a.entries) 0 =
        some (posixPermsetToDarwinRights (granted a.entries sb.uid sb.gid obj.uid obj.groups)
          sb.isDir) ↔
      passedOver obj sb a.entries ⊆ granted a.entries sb.uid sb.gid obj.uid obj.groups := by
  rw [posixAclRights_eq, UInt32.zero_or, reported_eq, Option.some.injEq]
  constructor
  · intro h
    exact union_eq_left.mp (darwinRights_injective h)
  · intro h
    rw [union_eq_left.mpr h]

/-- A file of root that everyone but the user 1000 may read. -/
def oneShutOut : Acl ℕ ℕ where
  entries := [⟨.userObj, {.read, .write}⟩, ⟨.user 1000, ∅⟩, ⟨.groupObj, {.read}⟩,
    ⟨.mask, {.read}⟩, ⟨.other, {.read}⟩]
  nodup := by decide
  userObj := by decide
  groupObj := by decide
  other := by decide

/-- The access check grants the user 1000 nothing, and the right to read is reported. -/
theorem posixAclRights_oneShutOut : granted oneShutOut.entries 0 0 1000 [100] = ∅ ∧
      posixAclRights ⟨1000, [100]⟩ ⟨0, 0, false⟩ (some oneShutOut.entries) 0 =
        some (posixPermsetToDarwinRights {.read} false) ∧
      posixAclRights ⟨1000, [100]⟩ ⟨0, 0, false⟩ (some oneShutOut.entries) 0 ≠
        some (posixPermsetToDarwinRights ∅ false) := by
  decide

end Netatalk.AclRights
