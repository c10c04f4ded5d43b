import Mathlib.Data.List.Nodup

/-! # Chains of linked nodes with back pointers to cells

Buckets hold the first node of a chain and every node the next one.  Such a place for a node is a
`Cell`.  A node also keeps the address of the cell that points to it, so that it leaves its chain
without a search: the cell takes over the node's own next pointer.

`Holds s chains` says that the pointers of `s` spell the given chains.  Linking a node puts it in
front of a chain (`Holds.link`) and unlinking takes it out of the one it is on (`Holds.unlink`).
`OnChain` is what a walk along the pointers meets. -/

namespace Netatalk

open List Function

/-- A place that holds a node: the head of a bucket or the next pointer of a node. -/
inductive Cell (β α : Type) where
  | bucket (b : β)
  | next (x : α)
deriving DecidableEq, Repr

/-- The pointers: what each cell holds, and the cell that holds a node. -/
structure Chains (β α : Type) where
  ptr : Cell β α → Option α
  prevp : α → Option (Cell β α)

namespace Chains

variable {β α : Type}

/-- No bucket holds a node. -/
def empty : Chains β α := ⟨fun _ => none, fun _ => none⟩

/-- A walk from the bucket along the next pointers meets the node. -/
inductive OnChain (s : Chains β α) (b : β) : α → Prop where
  | first {x : α} : s.ptr (.bucket b) = some x → OnChain s b x
  | next {x y : α} : OnChain s b x → s.ptr (.next x) = some y → OnChain s b y

/-- The pointers from the cell `c` on spell the list. -/
def Seg (s : Chains β α) : Cell β α → List α → Prop
  | c, [] => s.ptr c = none
  | c, x :: l => s.ptr c = some x ∧ s.prevp x = some c ∧ Seg s (.next x) l

/-- The pointers spell the given chains, and no node is on two of them or twice on one. -/
structure Holds (s : Chains β α) (chains : β → List α) : Prop where
  seg : ∀ b, s.Seg (.bucket b) (chains b)
  nodup : ∀ b, (chains b).Nodup
  disjoint : ∀ {b b' x}, x ∈ chains b → x ∈ chains b' → b = b'

section operations
variable [DecidableEq β] [DecidableEq α]

/-- The back pointer of the node in a cell is changed, if there is one. -/
def setPrevp (s : Chains β α) (x : Option α) (c : Cell β α) : Chains β α :=
  match x with
  | none => s
  | some y => { s with prevp := update s.prevp y (some c) }

/-- Put a node in front of the chain of a bucket. -/
def link (b : β) (x : α) (s : Chains β α) : Chains β α :=
  let first := s.ptr (.bucket b)
  let s := { s with ptr := update s.ptr (.next x) first }
  let s := s.setPrevp first (.next x)
  { ptr := update s.ptr (.bucket b) (some x)
    prevp := update s.prevp x (some (.bucket b)) }

/-- Take a node out of its chain; a node without a back pointer is on none. -/
def unlink (x : α) (s : Chains β α) : Chains β α :=
  match s.prevp x with
  | none => s
  | some c =>
    let after := s.ptr (.next x)
    let s := s.setPrevp after c
    { ptr := update (update s.ptr c after) (.next x) none
      prevp := update s.prevp x none }

end operations

/-! ### Segments -/

section seg
variable {s s' : Chains β α} {c : Cell β α} {l l₁ l₂ : List α} {x : α}

theorem Seg.ptr_eq (h : s.Seg c l) : s.ptr c = l.head? := by
  cases l with
  | nil => exact h
  | cons => exact h.1

/-- A segment can start from another cell that takes over its first node. -/
theorem Seg.move {c' : Cell β α} (h : s.Seg c l) (hp : s'.ptr c' = s.ptr c)
    (hhead : ∀ y ∈ l.head?, s'.prevp y = some c')
    (hnext : ∀ y ∈ l, s'.ptr (.next y) = s.ptr (.next y))
    (hprev : ∀ y ∈ l.tail, s'.prevp y = s.prevp y) : s'.Seg c' l := by
  induction l generalizing c c' with
  | nil => exact hp.trans h
  | cons x l ih =>
    obtain ⟨h₁, h₂, h₃⟩ := h
    refine ⟨hp.trans h₁, hhead x rfl, ih h₃ (hnext x (by simp)) ?_ ?_ ?_⟩
    · cases l with
      | nil => simp
      | cons z => simpa using (hprev z (by simp)).trans h₃.2.1
    · exact fun y hy => hnext y (by simp [hy])
    · exact fun y hy => hprev y (mem_of_mem_tail hy)

/-- A segment reads only its own cells and back pointers. -/
theorem Seg.congr (h : s.Seg c l) (hp : s'.ptr c = s.ptr c)
    (hnext : ∀ y ∈ l, s'.ptr (.next y) = s.ptr (.next y))
    (hprev : ∀ y ∈ l, s'.prevp y = s.prevp y) : s'.Seg c l := by
  refine h.move hp ?_ hnext (fun y hy => hprev y (mem_of_mem_tail hy))
  cases l with
  | nil => simp
  | cons x => simpa using (hprev x (by simp)).trans h.2.1

/-- The cell that holds a node is the start of the segment or the next pointer of a node in
front of it. -/
theorem Seg.prevp_mid (h : s.Seg c (l₁ ++ x :: l₂)) :
    (l₁ = [] ∧ s.prevp x = some c) ∨ ∃ y ∈ l₁, s.prevp x = some (.next y) := by
  induction l₁ generalizing c with
  | nil => exact .inl ⟨rfl, h.2.1⟩
  | cons y l₁ ih =>
    right
    rcases ih h.2.2 with ⟨-, hp⟩ | ⟨z, hz, hp⟩
    · exact ⟨y, by simp, hp⟩
    · exact ⟨z, by simp [hz], hp⟩

theorem Seg.next_mid (h : s.Seg c (l₁ ++ x :: l₂)) : s.Seg (.next x) l₂ := by
  induction l₁ generalizing c with
  | nil => exact h.2.2
  | cons y l₁ ih => exact ih h.2.2

end seg

section
variable {s : Chains β α} {chains : β → List α} (h : s.Holds chains) {b : β} {x : α}
include h

theorem Holds.onChain_iff : s.OnChain b x ↔ x ∈ chains b := by
  -- along the chain, every node is followed by the next one
  have hnext : ∀ {y z}, y ∈ chains b → s.ptr (.next y) = some z → z ∈ chains b := by
    intro y z hy hz
    obtain ⟨l₁, l₂, hl⟩ := append_of_mem hy
    have hseg := h.seg b
    rw [hl] at hseg ⊢
    rw [hseg.next_mid.ptr_eq] at hz
    simp [mem_of_mem_head? hz]
  constructor
  · intro hc
    induction hc with
    | first hp =>
      rw [(h.seg b).ptr_eq] at hp
      exact mem_of_mem_head? hp
    | next _ hp ih => exact hnext ih hp
  · have hwalk : ∀ (l : List α) (c : Cell β α), s.Seg c l →
        (∀ y, s.ptr c = some y → s.OnChain b y) → ∀ y ∈ l, s.OnChain b y := by
      intro l
      induction l with
      | nil => simp
      | cons z l ih =>
        intro c hseg hc y hy
        have hz := hc z hseg.1
        rcases mem_cons.mp hy with rfl | hy
        · exact hz
        · exact ih (.next z) hseg.2.2 (fun y hp => .next hz hp) y hy
    exact fun hx => hwalk _ _ (h.seg b) (fun y hp => .first hp) x hx

/-- The cell that holds a node of a chain belongs to that chain. -/
theorem Holds.prevp_mem (hx : x ∈ chains b) :
    ∃ d, s.prevp x = some d ∧ (d = .bucket b ∨ ∃ z ∈ chains b, d = .next z) := by
  obtain ⟨l₁, l₂, hl⟩ := append_of_mem hx
  have hseg := h.seg b
  rw [hl] at hseg ⊢
  rcases hseg.prevp_mid with ⟨-, hd⟩ | ⟨z, hz, hd⟩
  · exact ⟨_, hd, .inl rfl⟩
  · exact ⟨_, hd, .inr ⟨z, by simp [hz], rfl⟩⟩

end

theorem holds_empty : (empty : Chains β α).Holds fun _ => [] where
  seg _ := rfl
  nodup _ := nodup_nil
  disjoint h := by cases h

variable {y : α}

theorem notMem_head?_of_mem_tail {l : List α} (hn : l.Nodup) (hy : y ∈ l.tail) : y ∉ l.head? := by
  cases l with
  | nil => simp
  | cons =>
    rintro hz
    cases hz
    exact (nodup_cons.mp hn).1 hy

/-! ### Linking -/

section setPrevp
variable [DecidableEq α] (s : Chains β α) (c : Cell β α)

@[simp] theorem setPrevp_ptr (y : Option α) : (s.setPrevp y c).ptr = s.ptr := by
  cases y <;> rfl

@[simp] theorem setPrevp_self (y : α) : (s.setPrevp (some y) c).prevp y = some c := by
  simp [setPrevp]

theorem setPrevp_of_notMem {y : Option α} {z : α} (h : z ∉ y) :
    (s.setPrevp y c).prevp z = s.prevp z := by
  cases y with
  | none => rfl
  | some y =>
    have hne : z ≠ y := by
      rintro rfl
      exact h rfl
    simp [setPrevp, hne]

end setPrevp

section link
variable [DecidableEq β] [DecidableEq α] {s : Chains β α} {chains : β → List α} {b : β} {x : α}

variable {c : Cell β α}

theorem link_ptr (h₁ : c ≠ .bucket b) (h₂ : c ≠ .next x) : (s.link b x).ptr c = s.ptr c := by
  simp [link, h₁, h₂]

theorem link_prevp (h₁ : y ≠ x) (h₂ : y ∉ s.ptr (.bucket b)) :
    (s.link b x).prevp y = s.prevp y := by
  simp only [link, ne_eq, h₁, not_false_iff, update_of_ne]
  exact setPrevp_of_notMem _ _ h₂

theorem Holds.seg_link (h : s.Holds chains) (hx : x ∉ chains b) :
    (s.link b x).Seg (.bucket b) (x :: chains b) := by
  have hfirst := (h.seg b).ptr_eq
  have hne : ∀ y ∈ chains b, y ≠ x := by
    rintro y hy rfl
    exact hx hy
  refine ⟨by simp [link], by simp [link], (h.seg b).move (by simp [link]) ?_ ?_ ?_⟩
  · intro y hy
    have hyx := hne y (mem_of_mem_head? hy)
    rw [← hfirst, Option.mem_def] at hy
    simp [link, hyx, hy]
  · exact fun y hy => link_ptr (by simp) (by simp [hne y hy])
  · intro y hy
    apply link_prevp (hne y (mem_of_mem_tail hy))
    rw [hfirst]
    exact notMem_head?_of_mem_tail (h.nodup b) hy

theorem Holds.seg_link_of_ne (h : s.Holds chains) (hx : ∀ b, x ∉ chains b) {b' : β}
    (hb : b' ≠ b) : (s.link b x).Seg (.bucket b') (chains b') := by
  have hne : ∀ y ∈ chains b', y ≠ x := by
    rintro y hy rfl
    exact hx b' hy
  apply (h.seg b').congr
  · exact link_ptr (by simp [hb]) (by simp)
  · exact fun y hy => link_ptr (by simp) (by simp [hne y hy])
  · intro y hy
    refine link_prevp (hne y hy) fun hm => hb ?_
    rw [(h.seg b).ptr_eq] at hm
    exact h.disjoint hy (mem_of_mem_head? hm)

omit [DecidableEq α] in
theorem mem_update_cons {b' : β} :
    y ∈ update chains b (x :: chains b) b' ↔ (b' = b ∧ y = x) ∨ y ∈ chains b' := by
  by_cases hb : b' = b
  · subst hb
    simp
  · simp [hb]

theorem Holds.link (h : s.Holds chains) (hx : ∀ b, x ∉ chains b) :
    (s.link b x).Holds (update chains b (x :: chains b)) where
  seg b' := by
    by_cases hb : b' = b
    · subst hb
      simpa using h.seg_link (hx b')
    · simpa [hb] using h.seg_link_of_ne hx hb
  nodup b' := by
    by_cases hb : b' = b
    · subst hb
      simpa using ⟨hx b', h.nodup b'⟩
    · simpa [hb] using h.nodup b'
  disjoint {b₁ b₂ y} h₁ h₂ := by
    rw [mem_update_cons] at h₁ h₂
    rcases h₁ with ⟨rfl, rfl⟩ | h₁
    · rcases h₂ with ⟨rfl, -⟩ | h₂
      · rfl
      · exact absurd h₂ (hx b₂)
    · rcases h₂ with ⟨rfl, rfl⟩ | h₂
      · exact absurd h₁ (hx b₁)
      · exact h.disjoint h₁ h₂

/-! ### Unlinking -/

variable {d : Cell β α}

section
variable (hd : s.prevp x = some d)
include hd

theorem unlink_ptr (hx : d ≠ .next x) : (s.unlink x).ptr d = s.ptr (.next x) := by
  simp [unlink, hd, hx]

theorem unlink_ptr_of_ne (h₁ : c ≠ d) (h₂ : c ≠ .next x) : (s.unlink x).ptr c = s.ptr c := by
  simp [unlink, hd, h₁, h₂]

theorem unlink_prevp (hy : s.ptr (.next x) = some y) (hne : y ≠ x) :
    (s.unlink x).prevp y = some d := by
  simp [unlink, hd, hy, hne]

theorem unlink_prevp_of_ne (h₁ : y ≠ x) (h₂ : y ∉ s.ptr (.next x)) :
    (s.unlink x).prevp y = s.prevp y := by
  simp only [unlink, hd, ne_eq, h₁, not_false_iff, update_of_ne]
  exact setPrevp_of_notMem _ _ h₂

end

/-- The chain a node leaves. -/
theorem Seg.unlink {l₁ l₂ : List α} (h : s.Seg c (l₁ ++ x :: l₂)) (hn : (l₁ ++ x :: l₂).Nodup)
    (hc : ∀ y ∈ l₁ ++ x :: l₂, c ≠ .next y) : (s.unlink x).Seg c (l₁ ++ l₂) := by
  have hnext := h.next_mid.ptr_eq
  induction l₁ generalizing c with
  | nil =>
    -- the cell takes over what follows the node
    have hd := h.2.1
    have hx : x ∉ l₂ := (nodup_cons.mp hn).1
    have hne : ∀ y ∈ l₂, y ≠ x := by
      rintro y hy rfl
      exact hx hy
    refine h.2.2.move (unlink_ptr hd (hc x (by simp))) ?_ ?_ ?_
    · intro y hy
      exact unlink_prevp hd (hnext.trans hy) (hne y (mem_of_mem_head? hy))
    · intro y hy
      exact unlink_ptr_of_ne hd (hc y (by simp [hy])).symm (by simp [hne y hy])
    · intro y hy
      apply unlink_prevp_of_ne hd (hne y (mem_of_mem_tail hy))
      rw [hnext]
      exact notMem_head?_of_mem_tail (nodup_cons.mp hn).2 hy
  | cons y l₁ ih =>
    -- the cell that holds the node lies further on
    obtain ⟨z, hz, hd⟩ := h.prevp_mid.resolve_left (by simp)
    have hyn : y ∉ l₁ ++ x :: l₂ := (nodup_cons.mp hn).1
    have hyx : y ≠ x := by
      rintro rfl
      simp at hyn
    refine ⟨?_, ?_, ih h.2.2 (nodup_cons.mp hn).2 ?_⟩
    · rw [unlink_ptr_of_ne hd (hc z (by simp at hz ⊢; tauto)) (hc x (by simp))]
      exact h.1
    · rw [unlink_prevp_of_ne hd hyx]
      · exact h.2.1
      · rw [hnext]
        intro hm
        exact hyn (by simp [mem_of_mem_head? hm])
    · rintro w hw heq
      cases heq
      exact hyn hw

theorem Holds.seg_unlink_of_ne (h : s.Holds chains) (hx : x ∈ chains b) {b' : β} (hb : b' ≠ b) :
    (s.unlink x).Seg (.bucket b') (chains b') := by
  have hother : ∀ {y}, y ∈ chains b' → y ∉ chains b := fun hy hm => hb (h.disjoint hy hm)
  have hne : ∀ y ∈ chains b', y ≠ x := by
    rintro y hy rfl
    exact hother hy hx
  obtain ⟨d, hd, hcell⟩ := h.prevp_mem hx
  apply (h.seg b').congr
  · apply unlink_ptr_of_ne hd _ (by simp)
    rcases hcell with rfl | ⟨z, -, rfl⟩ <;> simp [hb]
  · intro y hy
    apply unlink_ptr_of_ne hd _ (by simp [hne y hy])
    rcases hcell with rfl | ⟨z, hz, rfl⟩
    · simp
    · rintro heq
      cases heq
      exact hother hy hz
  · intro y hy
    apply unlink_prevp_of_ne hd (hne y hy)
    -- what follows the node is on the node's chain
    exact fun hm => hother hy (h.onChain_iff.mp (.next (h.onChain_iff.mpr hx) hm))

theorem Holds.unlink (h : s.Holds chains) (hx : x ∈ chains b) :
    (s.unlink x).Holds fun b' => (chains b').erase x where
  seg b' := by
    by_cases hb : b' = b
    · subst hb
      obtain ⟨l₁, l₂, hl⟩ := append_of_mem hx
      have hseg := h.seg b'
      have hn := h.nodup b'
      rw [hl] at hseg hn ⊢
      have hx₁ : x ∉ l₁ := fun hm => (nodup_append'.mp hn).2.2 hm (by simp)
      rw [erase_append_right _ hx₁, erase_cons_head]
      exact hseg.unlink hn (fun y _ => by simp)
    · have hx' : x ∉ chains b' := fun hm => hb (h.disjoint hm hx)
      rw [erase_of_not_mem hx']
      exact h.seg_unlink_of_ne hx hb
  nodup b' := (h.nodup b').erase x
  disjoint h₁ h₂ := h.disjoint (mem_of_mem_erase h₁) (mem_of_mem_erase h₂)

end link

end Chains

end Netatalk
