import Mathlib

/-! # POSIX.1e access control lists

An access control list is a list of entries, each a tag and a set of permissions.  Three tags stand
for the owner, the owning group and all others, two name a user or a group, and one is the mask
that limits the named entries and the owning group.

The access check picks one class of entries by precedence (`Acl.classOf`) and gives what the entries
of that class say.  It is defined over `gathered`, the union of the permissions of all entries with
a given kind of tag, so that every law about it is a law about membership (`mem_gathered`). -/

namespace Netatalk.PosixAcl

inductive Access where
  | read | write | execute
deriving DecidableEq, Repr

instance : Fintype Access :=
  ⟨{.read, .write, .execute}, fun a => by cases a <;> decide⟩

inductive Tag (U G : Type) where
  | userObj
  | user (uid : U)
  | groupObj
  | group (gid : G)
  | mask
  | other
deriving DecidableEq, Repr

variable {U G : Type}

/-- The tag names a user or a group. -/
def Tag.named : Tag U G → Bool
  | .user _ | .group _ => true
  | _ => false

structure Entry (U G : Type) where
  tag : Tag U G
  perms : Finset Access
deriving DecidableEq

/-- What the entries with a given kind of tag give together. -/
def gathered (p : Tag U G → Bool) : List (Entry U G) → Finset Access
  | [] => ∅
  | e :: l => if p e.tag then e.perms ∪ gathered p l else gathered p l

variable {p : Tag U G → Bool} {t : Tag U G} {x : Access}

variable {l : List (Entry U G)}

@[simp] theorem mem_gathered : x ∈ gathered p l ↔ ∃ e ∈ l, p e.tag = true ∧ x ∈ e.perms := by
  induction l with
  | nil => simp [gathered]
  | cons e l ih =>
    rw [gathered]
    split_ifs with he
    · simp [he, ih]
    · simp [he, ih]

theorem gathered_append (p : Tag U G → Bool) (l l' : List (Entry U G)) :
    gathered p (l ++ l') = gathered p l ∪ gathered p l' := by
  ext x
  simp only [mem_gathered, List.mem_append, Finset.mem_union, or_and_right, exists_or]

theorem gathered_filter (p q : Tag U G → Bool) (l : List (Entry U G)) :
    gathered p (l.filter (q ·.tag)) = gathered (fun t => q t && p t) l := by
  ext x
  simp only [mem_gathered, List.mem_filter, Bool.and_eq_true, and_assoc]

theorem gathered_congr {q : Tag U G → Bool} (h : ∀ e ∈ l, p e.tag = q e.tag) :
    gathered p l = gathered q l := by
  ext x
  simp only [mem_gathered]
  constructor
  · rintro ⟨e, he, hp, hx⟩
    exact ⟨e, he, h e he ▸ hp, hx⟩
  · rintro ⟨e, he, hq, hx⟩
    exact ⟨e, he, (h e he).symm ▸ hq, hx⟩

theorem gathered_union {q r : Tag U G → Bool} (h : ∀ t, p t = (q t || r t)) :
    gathered p l = gathered q l ∪ gathered r l := by
  ext x
  simp only [mem_gathered, Finset.mem_union, h, Bool.or_eq_true, or_and_right, and_or_left,
    exists_or]

theorem gathered_eq_empty (h : ∀ e ∈ l, p e.tag = true → e.perms = ∅) : gathered p l = ∅ := by
  apply Finset.eq_empty_of_forall_notMem
  intro x hx
  obtain ⟨e, he, hp, hx⟩ := mem_gathered.mp hx
  rw [h e he hp] at hx
  exact Finset.notMem_empty x hx

variable [DecidableEq U] [DecidableEq G]

/-- What the entries with one tag give. -/
def permsOf (t : Tag U G) (l : List (Entry U G)) : Finset Access := gathered (· = t) l

/-- Some entry has the tag. -/
def hasTag (t : Tag U G) (l : List (Entry U G)) : Bool := l.any (·.tag = t)

theorem hasTag_iff : hasTag t l = true ↔ ∃ e ∈ l, e.tag = t := by
  simp [hasTag]

theorem hasTag_eq_false : hasTag t l = false ↔ ∀ e ∈ l, e.tag ≠ t := by
  simp [hasTag]

/-- The permissions as far as the mask, if there is one, lets them pass. -/
def limit (l : List (Entry U G)) (s : Finset Access) : Finset Access :=
  if hasTag .mask l then s ∩ permsOf .mask l else s

theorem mem_limit {s : Finset Access} :
    x ∈ limit l s ↔ x ∈ s ∧ (hasTag .mask l = true → x ∈ permsOf .mask l) := by
  unfold limit
  split_ifs with h
  · simp [h]
  · simp [h]

theorem limit_union (l : List (Entry U G)) (s t : Finset Access) :
    limit l (s ∪ t) = limit l s ∪ limit l t := by
  unfold limit
  split_ifs
  · exact Finset.union_inter_distrib_right s t _
  · rfl

theorem limit_subset (l : List (Entry U G)) (s : Finset Access) : limit l s ⊆ s := by
  unfold limit
  split_ifs
  · exact Finset.inter_subset_left
  · exact Finset.Subset.refl s

@[simp] theorem limit_empty (l : List (Entry U G)) : limit l ∅ = ∅ :=
  Finset.subset_empty.mp (limit_subset l ∅)

/-- The entries of the group class that are for a member of the groups. -/
def Tag.inGroups (owning : G) (groups : List G) : Tag U G → Bool
  | .groupObj => owning ∈ groups
  | .group gid => gid ∈ groups
  | _ => false

theorem any_inGroups (h : hasTag .groupObj l = true) (owning : G) (groups : List G) :
    l.any (·.tag.inGroups owning groups) = true ↔
      owning ∈ groups ∨ ∃ gid ∈ groups, hasTag (.group gid) l = true := by
  simp only [List.any_eq_true, hasTag_iff]
  constructor
  · rintro ⟨⟨t, perms⟩, he, hin⟩
    cases t with
    | groupObj => exact .inl (of_decide_eq_true hin)
    | group gid => exact .inr ⟨gid, of_decide_eq_true hin, _, he, rfl⟩
    | userObj | user | mask | other => cases hin
  · rintro (hin | ⟨gid, hin, e, he, ht⟩)
    · obtain ⟨e, he, ht⟩ := hasTag_iff.mp h
      refine ⟨e, he, ?_⟩
      rw [ht]
      exact decide_eq_true hin
    · refine ⟨e, he, ?_⟩
      rw [ht]
      exact decide_eq_true hin

/-- The class of entries that decides. -/
inductive Class where
  | owner | user | group | other
deriving DecidableEq, Repr

/-- The owner of the file, a named user, a member of a group with an entry, or anyone else. -/
def classOf (l : List (Entry U G)) (owner : U) (owning : G) (uid : U) (groups : List G) : Class :=
  if uid = owner then .owner
  else if hasTag (.user uid) l then .user
  else if l.any (·.tag.inGroups owning groups) then .group
  else .other

/-- The permissions that the access check grants a user with a set of groups. -/
def granted (l : List (Entry U G)) (owner : U) (owning : G) (uid : U) (groups : List G) :
    Finset Access :=
  match classOf l owner owning uid groups with
  | .owner => permsOf .userObj l
  | .user => limit l (permsOf (.user uid) l)
  | .group => limit l (gathered (·.inGroups owning groups) l)
  | .other => permsOf .other l

section
variable {l : List (Entry U G)} {owner uid : U} {owning : G} {groups : List G}

theorem granted_owner : granted l owner owning owner groups = permsOf .userObj l := by
  rw [granted, classOf, if_pos rfl]

theorem granted_user (howner : uid ≠ owner) (huser : hasTag (.user uid) l = true) :
    granted l owner owning uid groups = limit l (permsOf (.user uid) l) := by
  rw [granted, classOf, if_neg howner, if_pos huser]

theorem granted_group (howner : uid ≠ owner) (huser : ¬hasTag (.user uid) l = true)
    (hgroup : l.any (·.tag.inGroups owning groups) = true) :
    granted l owner owning uid groups = limit l (gathered (·.inGroups owning groups) l) := by
  rw [granted, classOf, if_neg howner, if_neg huser, if_pos hgroup]

theorem granted_other (howner : uid ≠ owner) (huser : ¬hasTag (.user uid) l = true)
    (hgroup : ¬l.any (·.tag.inGroups owning groups) = true) :
    granted l owner owning uid groups = permsOf .other l := by
  rw [granted, classOf, if_neg howner, if_neg huser, if_neg hgroup]

end

/-- An access control list: one entry for each of the owner, the owning group and all others, and
no two entries for the same. -/
structure Acl (U G : Type) where
  entries : List (Entry U G)
  nodup : (entries.map Entry.tag).Nodup
  userObj : ∃ e ∈ entries, e.tag = .userObj
  groupObj : ∃ e ∈ entries, e.tag = .groupObj
  other : ∃ e ∈ entries, e.tag = .other

theorem permsOf_eq_of_mem (hn : (l.map Entry.tag).Nodup) {e : Entry U G} (he : e ∈ l) :
    permsOf e.tag l = e.perms := by
  ext x
  simp only [permsOf, mem_gathered, decide_eq_true_eq]
  constructor
  · rintro ⟨e', he', ht, hx⟩
    rwa [← List.inj_on_of_nodup_map hn he' he ht]
  · exact fun hx => ⟨e, he, rfl, hx⟩

end Netatalk.PosixAcl
