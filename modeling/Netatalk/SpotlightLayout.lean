import Netatalk.SpotlightPack

/-! # The layout of a packed document

A query tree is laid out as a flat list of items: bytes that need no entry in the table of
contents, compound elements with their entry, and nested documents.  The packer is the loop that
emits these items (`slPackLoop_eq_emitAll`), and when it succeeds it has written exactly the data
and the entries of the layout (`slPackLen_layout`). -/

namespace Netatalk.Spotlight

open List hiding Vector
open Netatalk.Bytes Netatalk.Fallible

/-! ### Raw bytes -/

variable {b buf buf' d : List UInt8} {h : Host} {items : List Item}
  {loop : ℕ → Pack → Except Err Pack} {n off type val : ℕ} {o : Obj} {p' : Pack} {t : List ℕ}

variable {m : ℕ} {bs : List UInt8} {p : Pack}

theorem put_eq_ok :
    put o buf off bs = .ok buf' ↔ off + bs.length ≤ buf.length ∧ splice buf off bs = buf' := by
  unfold put write
  split_ifs with h <;> simp [h]

theorem put_ok (h : off + bs.length ≤ buf.length) : put o buf off bs = .ok (splice buf off bs) :=
  put_eq_ok.mpr ⟨h, rfl⟩

theorem sivalc_eq_ok : sivalc o buf off m val = .ok buf' ↔
      off + 4 ≤ m ∧ off + 4 ≤ buf.length ∧ splice buf off (leBytes 4 val) = buf' := by
  unfold sivalc
  split_ifs with h
  · simp only [false_iff]
    omega
  · rw [put_eq_ok, length_leBytes]
    simp only [Nat.not_lt.mp h, true_and]

theorem slvalc_eq_ok : slvalc o buf off m val = .ok buf' ↔
      off + 8 ≤ m ∧ off + 8 ≤ buf.length ∧ splice buf off (word val) = buf' := by
  unfold slvalc
  split_ifs with h
  · simp only [false_iff]
    omega
  · rw [put_eq_ok, length_word]
    simp only [Nat.not_lt.mp h, true_and]

/-- Bytes that need no entry, all of them or none. -/
def emitRaw (bs : List UInt8) (maxoff : ℕ) (p : Pack) : Except Err Pack :=
  if maxoff < p.offset + bs.length then .error .fail
  else do
    let buf ← put .data p.buf p.offset bs
    return { p with
      buf := buf
      offset := p.offset + bs.length }

/-- The packer behind raw bytes. -/
def Pack.raw (p : Pack) (bs : List UInt8) : Pack :=
  { p with
    buf := splice p.buf p.offset bs
    offset := p.offset + bs.length }

section raw
variable {m : ℕ} {p : Pack} {bs : List UInt8}

theorem emitRaw_fail (h : m < p.offset + bs.length) : emitRaw bs m p = .error .fail := by
  rw [emitRaw, if_pos h]

variable (hm : m ≤ p.buf.length)
include hm

theorem emitRaw_ok (h : p.offset + bs.length ≤ m) : emitRaw bs m p = .ok (p.raw bs) := by
  rw [emitRaw, if_neg (by omega), put_ok (by omega)]
  rfl

theorem emitRaw_eq_ok : emitRaw bs m p = .ok p' ↔ p.offset + bs.length ≤ m ∧ p.raw bs = p' := by
  by_cases h : p.offset + bs.length ≤ m
  · rw [emitRaw_ok hm h]
    simp [h]
  · rw [emitRaw_fail (by omega)]
    simp [h]

theorem length_raw (h : p.offset + bs.length ≤ m) : (p.raw bs).buf.length = p.buf.length :=
  length_splice (h.trans hm)

theorem emitRaw_nil (ho : p.offset ≤ m) : emitRaw [] m p = .ok p := by
  have hraw : p.raw [] = p := by simp [Pack.raw, splice]
  exact (@emitRaw_ok m p [] hm ho).trans (by rw [hraw])

theorem emitRaw_append (a b : List UInt8) :
    emitRaw (a ++ b) m p = emitRaw a m p >>= emitRaw b m := by
  have hl : (a ++ b).length = a.length + b.length := length_append
  by_cases ha : p.offset + a.length ≤ m
  · have hm' : m ≤ (p.raw a).buf.length := by rw [length_raw hm ha]; exact hm
    have ho : (p.raw a).offset = p.offset + a.length := rfl
    rw [emitRaw_ok hm ha, ok_bind]
    by_cases hab : p.offset + (a ++ b).length ≤ m
    · rw [emitRaw_ok hm hab, emitRaw_ok hm' (by omega)]
      simp only [Pack.raw, splice_append (hab.trans hm), hl, add_assoc]
    · rw [emitRaw_fail (by omega), emitRaw_fail (by omega)]
  · rw [emitRaw_fail (by omega), emitRaw_fail (by omega)]
    rfl

end raw

/-! ### Layouts -/

/-- A part of a document, in packing order. -/
inductive Item where
  /-- bytes that need no entry -/
  | raw (bs : List UInt8)
  /-- a compound element: type and value of its entry, and the bytes behind its tag -/
  | entry (type val : ℕ) (bs : List UInt8)
  /-- a nested document -/
  | doc (items : List Item)
  /-- a string without a NUL, which the packer refuses -/
  | bad

theorem length_splice_word (w : ℕ) (h : off + 8 ≤ buf.length) :
    (splice buf off (word w)).length = buf.length :=
  length_splice (by rw [length_word]; exact h)

theorem take_splice_word (w : ℕ) (h : off + 8 ≤ buf.length) :
    (splice buf off (word w)).take (off + 8) = buf.take off ++ word w := by
  have ht := @take_splice buf (word w) off (by rw [length_word]; exact h)
  rwa [length_word] at ht

/-- The data of a CNID list behind the tag of its element. -/
def cnidBytes (unkn1 : UInt16) (context : UInt32) (ids : List UInt64) : List UInt8 :=
  if 0 < ids.length then
    word (slPackTag sqTypeCnids (ids.length + 2) 8) ++
      (word (slPackTag unkn1.toNat ids.length context.toNat) ++
        ids.flatMap fun id => word id.toNat)
  else
    word (slPackTag sqTypeCnids 1 8)

/-- The data of a string behind the tag of its element. -/
def stringBytes (s : List UInt8) : List UInt8 :=
  word (slPackTag sqTypeData (octets s.length + 1) (usedInLastOctet s.length)) ++
    (s ++ replicate (octets s.length * 8 - s.length) 0)

/-- The characters of a block, if `sl_pack_string` takes it. -/
def stringOf (block : List UInt8) : Option (List UInt8) :=
  if block.length = 0 ∨ strnlen block = block.length ∨ intMax < strnlen block then none
  else some (block.take (strnlen block))

mutual
/-- The layout of a value. -/
def Node.items (h : Host) : Node → List Item
  | .array xs => .entry sqCpxTypeArray xs.length [] :: flatten h xs
  | .dict xs => .entry sqCpxTypeDict xs.length [] :: flatten h xs
  | .filemeta xs => [.doc (flatten h xs)]
  | .uint64 v => [.raw (word (slPackTag sqTypeInt64 2 1) ++ word v.toNat)]
  | .string block =>
    match stringOf block with
    | none => [.bad]
    | some s => [.entry sqCpxTypeString (usedInLastOctet s.length) (stringBytes s)]
  | .bool b => [.raw (word (slPackTag sqTypeBool 1 (if b then 1 else 0)))]
  | .double bits => [.raw (word (slPackTag sqTypeFloat 2 1) ++ word bits.toNat)]
  | .nil => [.raw (word (slPackTag sqTypeNull 1 1))]
  | .date t => [.raw (word (slPackTag sqTypeDate 2 1) ++ word (h.dateBits t).toNat)]
  | .uuid u => [.raw (word (slPackTag sqTypeUuid 3 1) ++ u.toList)]
  | .cnids unkn1 context ids => [.entry sqCpxTypeCnids 0 (cnidBytes unkn1 context ids)]
  | .other => []

/-- The layout of the values of a list. -/
def flatten (h : Host) : List Node → List Item
  | [] => []
  | x :: xs => x.items h ++ flatten h xs
end

mutual
/-- The packer's step for one item. -/
def emit (h : Host) : Item → ℕ → Pack → Except Err Pack
  | .raw bs => emitRaw bs
  | .entry type val bs => fun maxoff p => do
      let p ← slPackEntry type val maxoff p
      emitRaw bs maxoff p
  | .doc items => slPackFilemeta (slPackLenOf h (emitAll h items))
  | .bad => fun _ _ => .error .fail

/-- The packer's steps for a list of items. -/
def emitAll (h : Host) : List Item → ℕ → Pack → Except Err Pack
  | [], _, p => .ok p
  | i :: is, maxoff, p => do
      let p ← emit h i maxoff p
      emitAll h is maxoff p
end

theorem emitAll_append (h : Host) (a b : List Item) (m : ℕ) (p : Pack) :
    emitAll h (a ++ b) m p = emitAll h a m p >>= emitAll h b m := by
  induction a generalizing p with
  | nil => rfl
  | cons i a ih =>
    rw [cons_append, emitAll, emitAll]
    cases emit h i m p with
    | error => rfl
    | ok p' => exact ih p'

theorem emitAll_singleton (h : Host) (i : Item) (m : ℕ) (p : Pack) :
    emitAll h [i] m p = emit h i m p := by
  rw [emitAll]
  cases emit h i m p <;> rfl

/-! ### The elements of the source -/

section elements
variable {m : ℕ} {p : Pack}

theorem slPackLone_eq (tag : ℕ) : slPackLone tag m p = emitRaw (word tag) m p := by
  unfold slPackLone emitRaw slvalc
  rw [length_word]
  split_ifs <;> rfl

/-- The packer behind the tag of a compound element and its entry. -/
def Pack.entry (p : Pack) (type val : ℕ) : Pack where
  buf := splice p.buf p.offset (word (slPackTag sqTypeComplex 1 (p.tocIdx + 1)))
  toc := splice p.toc (p.tocIdx * 8) (word (slPackTag type ((p.offset + slOffsetDelta) / 8) val))
  tocIdx := p.tocIdx + 1
  offset := p.offset + 8

theorem slPackEntry_eq_ok : slPackEntry type val m p = .ok p' ↔
      (p.tocIdx * 8 + 8 ≤ maxSlqToc ∧ p.tocIdx * 8 + 8 ≤ p.toc.length) ∧
      (p.offset + 8 ≤ m ∧ p.offset + 8 ≤ p.buf.length) ∧ p.entry type val = p' := by
  unfold slPackEntry
  simp only [bind_eq_ok, slvalc_eq_ok]
  constructor
  · rintro ⟨toc, ⟨h₁, h₂, rfl⟩, buf, ⟨h₃, h₄, rfl⟩, hp⟩
    exact ⟨⟨h₁, h₂⟩, ⟨h₃, h₄⟩, Except.ok.inj hp⟩
  · rintro ⟨⟨h₁, h₂⟩, ⟨h₃, h₄⟩, rfl⟩
    exact ⟨_, ⟨h₁, h₂, rfl⟩, _, ⟨h₃, h₄, rfl⟩, rfl⟩

theorem slPackEntry_length (h : slPackEntry type val m p = .ok p') :
    p'.buf.length = p.buf.length := by
  obtain ⟨_, ⟨_, h₄⟩, rfl⟩ := slPackEntry_eq_ok.mp h
  exact length_splice_word _ h₄

variable (hm : m ≤ p.buf.length)
include hm

theorem slPackWord_eq (type : ℕ) (w : UInt64) :
    slPackWord type w m p = emitRaw (word (slPackTag type 2 1) ++ word w.toNat) m p := by
  rw [emitRaw_append hm, ← slPackLone_eq]
  unfold slPackWord slPackLone
  cases slvalc .data p.buf p.offset m (slPackTag type 2 1) with
  | error => rfl
  | ok buf =>
    exact slPackLone_eq (p := ⟨buf, p.toc, p.tocIdx, p.offset + 8⟩) _

theorem slPackUuid_eq (u : Vector UInt8 16) :
    slPackUuid u m p = emitRaw (word (slPackTag sqTypeUuid 3 1) ++ u.toList) m p := by
  have hu : u.toList.length = 16 := u.length_toList
  rw [emitRaw_append hm, ← slPackLone_eq]
  unfold slPackUuid slPackLone
  cases slvalc .data p.buf p.offset m (slPackTag sqTypeUuid 3 1) with
  | error => rfl
  | ok =>
    simp only [emitRaw, hu, ok_bind, pure, Except.pure]

theorem slPackIds_eq (ho : p.offset ≤ m) (ids : List UInt64) :
    slPackIds m ids p = emitRaw (ids.flatMap fun id => word id.toNat) m p := by
  induction ids generalizing p with
  | nil => exact (emitRaw_nil hm ho).symm
  | cons id ids ih =>
    rw [slPackIds, slPackLone_eq, flatMap_cons, emitRaw_append hm]
    refine bind_congr_ok fun p' hp' => ?_
    obtain ⟨hle, rfl⟩ := (emitRaw_eq_ok hm).mp hp'
    exact ih (by rw [length_raw hm hle]; exact hm) hle

theorem slPackCNID_eq (unkn1 : UInt16) (context : UInt32) (ids : List UInt64) :
    slPackCNID unkn1 context ids m p =
      slPackEntry sqCpxTypeCnids 0 m p >>= emitRaw (cnidBytes unkn1 context ids) m := by
  unfold slPackCNID cnidBytes
  refine bind_congr_ok fun p₁ hp₁ => ?_
  have hm₁ : m ≤ p₁.buf.length := by rw [slPackEntry_length hp₁]; exact hm
  split_ifs with hids
  · dsimp only
    rw [emitRaw_append hm₁, slPackLone_eq]
    refine bind_congr_ok fun p₂ hp₂ => ?_
    obtain ⟨hle₂, rfl⟩ := (emitRaw_eq_ok hm₁).mp hp₂
    have hm₂ := hm₁
    rw [← length_raw hm₁ hle₂] at hm₂
    rw [emitRaw_append hm₂, slPackLone_eq]
    refine bind_congr_ok fun p₃ hp₃ => ?_
    obtain ⟨hle₃, rfl⟩ := (emitRaw_eq_ok hm₂).mp hp₃
    exact slPackIds_eq (by rw [length_raw hm₂ hle₃]; exact hm₂) hle₃ ids
  · have hzero : ids.length = 0 := by omega
    dsimp only
    rw [hzero, slPackLone_eq]
    cases emitRaw (word (slPackTag sqTypeCnids 1 8)) m p₁ <;> rfl

theorem slPackString_eq (block : List UInt8) : slPackString block m p =
      match stringOf block with
      | none => .error .fail
      | some s => slPackEntry sqCpxTypeString (usedInLastOctet s.length) m p >>=
          emitRaw (stringBytes s) m := by
  unfold slPackString stringOf
  dsimp only
  split_ifs with hbad
  · rfl
  have hlen : (block.take (strnlen block)).length = strnlen block := by
    rw [length_take]
    exact min_eq_left (takeWhile_sublist _).length_le
  have hoct : strnlen block ≤ octets (strnlen block) * 8 := by
    unfold octets
    split_ifs <;> omega
  simp only [stringBytes, hlen]
  refine bind_congr_ok fun p₁ hp₁ => ?_
  have hm₁ : m ≤ p₁.buf.length := by rw [slPackEntry_length hp₁]; exact hm
  rw [emitRaw_append hm₁, slPackLone_eq]
  refine bind_congr_ok fun p₂ hp₂ => ?_
  obtain ⟨hle₂, rfl⟩ := (emitRaw_eq_ok hm₁).mp hp₂
  have hm₂ := hm₁
  rw [← length_raw hm₁ hle₂] at hm₂
  have ho : (p₁.raw (word (slPackTag sqTypeData (octets (strnlen block) + 1)
    (usedInLastOctet (strnlen block))))).offset ≤ m := hle₂
  generalize p₁.raw _ = p₂ at hm₂ ho ⊢
  have hpad : (block.take (strnlen block) ++
      replicate (octets (strnlen block) * 8 - strnlen block) 0).length =
      octets (strnlen block) * 8 := by
    rw [length_append, length_replicate]
    omega
  split_ifs with hfit
  · rw [emitRaw_fail (by omega)]
  · rw [emitRaw_ok hm₂ (by omega), put_ok (by rw [length_replicate]; omega),
      ok_bind, put_ok (by rw [length_splice (by rw [length_replicate]; omega)]; omega),
      splice_splice (by rw [length_replicate]; omega)
        (by rw [length_replicate]; omega), drop_replicate, hlen, Pack.raw, hpad]
    rfl

end elements

/-! ### Data and table of contents -/

/-- The size of a document with so much data and so many entries. -/
def docSize (size tocs : ℕ) : ℕ := 16 + size + (tocs + 1) * 8

/-- What is kept of a nested document of some size. -/
def bodySize (n : ℕ) : ℕ := if 40 < n then n else 0

/-- The entries an item adds. -/
def Item.tocs : Item → ℕ
  | .raw _ => 0
  | .entry _ _ _ => 1
  | .doc _ => 1
  | .bad => 0

/-- The entries of a layout. -/
def tocsAll (items : List Item) : ℕ := (items.map Item.tocs).sum

mutual
/-- The bytes an item takes. -/
def Item.size : Item → ℕ
  | .raw bs => bs.length
  | .entry _ _ bs => 8 + bs.length
  | .doc items => 16 + bodySize (docSize (sizeAll items) (tocsAll items))
  | .bad => 0

/-- The bytes of a layout. -/
def sizeAll : List Item → ℕ
  | [] => 0
  | i :: is => i.size + sizeAll is
end

/-- The entries of an item at an offset. -/
def Item.toc (o : ℕ) : Item → List ℕ
  | .raw _ => []
  | .entry type val _ => [slPackTag type ((o + slOffsetDelta) / 8) val]
  | .doc items => [slPackTag sqCpxTypeFilemeta ((o + slOffsetDelta) / 8)
      (bodySize (docSize (sizeAll items) (tocsAll items)) / 8)]
  | .bad => []

/-- The table of contents of a layout that starts at an offset. -/
def tocAll : ℕ → List Item → List ℕ
  | _, [] => []
  | o, i :: is => i.toc o ++ tocAll (o + i.size) is

/-- A document with this data and these entries. -/
def docBytes (data : List UInt8) (toc : List ℕ) : List UInt8 :=
  magic ++ (leBytes 4 (data.length / 8 + 1 + toc.length + 1) ++
    (leBytes 4 (data.length / 8 + 1) ++
      (data ++ (word (slPackTag sqTypeToc (toc.length + 1) 0) ++ toc.flatMap word))))

mutual
/-- The data of an item behind so many entries. -/
def Item.data (idx : ℕ) : Item → List UInt8
  | .raw bs => bs
  | .entry _ _ bs => word (slPackTag sqTypeComplex 1 (idx + 1)) ++ bs
  | .doc items =>
    let n := bodySize (docSize (sizeAll items) (tocsAll items))
    word (slPackTag sqTypeComplex 1 (idx + 1)) ++ (word (slPackTag sqTypeData (n / 8 + 1) 8) ++
      (docBytes (dataAll 0 items) (tocAll 0 items)).take n)
  | .bad => []

/-- The data of a layout behind so many entries. -/
def dataAll (idx : ℕ) : List Item → List UInt8
  | [] => []
  | i :: is => i.data idx ++ dataAll (idx + i.tocs) is
end

@[simp] theorem length_flatMap_word (t : List ℕ) : (t.flatMap word).length = t.length * 8 := by
  induction t with
  | nil => rfl
  | cons w t ih =>
    rw [flatMap_cons, length_append, length_word, ih, length_cons]
    omega

theorem length_docBytes (d : List UInt8) (t : List ℕ) :
    (docBytes d t).length = docSize d.length t.length := by
  simp only [docBytes, docSize, length_append, length_leBytes, length_word,
    length_flatMap_word, magic, length_cons, length_nil]
  omega

@[simp] theorem tocsAll_nil : tocsAll [] = 0 := rfl

@[simp] theorem tocsAll_cons (i : Item) (is : List Item) :
    tocsAll (i :: is) = i.tocs + tocsAll is := by
  simp [tocsAll]

theorem Item.length_toc (i : Item) (o : ℕ) : (i.toc o).length = i.tocs := by
  cases i <;> rfl

theorem length_tocAll (is : List Item) (o : ℕ) : (tocAll o is).length = tocsAll is := by
  induction is generalizing o with
  | nil => rfl
  | cons i is ih => rw [tocAll, length_append, ih, i.length_toc, tocsAll_cons]

mutual
theorem Item.length_data : (i : Item) → ∀ idx, (i.data idx).length = i.size
  | .raw bs, idx => by rw [Item.data, Item.size]
  | .entry _ _ bs, idx => by rw [Item.data, Item.size, length_append, length_word]
  | .doc items, idx => by
      have hd := length_docBytes (dataAll 0 items) (tocAll 0 items)
      rw [length_dataAll items, length_tocAll] at hd
      rw [Item.data, Item.size]
      simp only [length_append, length_word, length_take, hd, bodySize]
      split_ifs <;> omega
  | .bad, idx => by rw [Item.data, Item.size, length_nil]

theorem length_dataAll : (is : List Item) → ∀ idx, (dataAll idx is).length = sizeAll is
  | [], idx => by rw [dataAll, sizeAll, length_nil]
  | i :: is, idx => by
      rw [dataAll, sizeAll, length_append, i.length_data, length_dataAll is]
end

/-! ### What the packer has written -/

/-- From one state to a later one the packer has appended this data and these entries. -/
structure Wrote (p p' : Pack) (data : List UInt8) (toc : List ℕ) : Prop where
  offset : p'.offset = p.offset + data.length
  tocIdx : p'.tocIdx = p.tocIdx + toc.length
  bufLength : p'.buf.length = p.buf.length
  tocLength : p'.toc.length = p.toc.length
  buf : p'.buf.take p'.offset = p.buf.take p.offset ++ data
  toc : p'.toc.take (p'.tocIdx * 8) = p.toc.take (p.tocIdx * 8) ++ toc.flatMap word

theorem Wrote.refl (p : Pack) : Wrote p p [] [] := by
  constructor <;> simp

theorem Wrote.trans {p q r : Pack} {d' : List UInt8} {t' : List ℕ} (h : Wrote p q d t)
    (h' : Wrote q r d' t') : Wrote p r (d ++ d') (t ++ t') where
  offset := by rw [h'.offset, h.offset, length_append, add_assoc]
  tocIdx := by rw [h'.tocIdx, h.tocIdx, length_append, add_assoc]
  bufLength := h'.bufLength.trans h.bufLength
  tocLength := h'.tocLength.trans h.tocLength
  buf := by rw [h'.buf, h.buf, append_assoc]
  toc := by rw [h'.toc, h.toc, flatMap_append, append_assoc]

theorem wrote_raw (hm : m ≤ p.buf.length) (h : emitRaw bs m p = .ok p') : Wrote p p' bs [] := by
  obtain ⟨hle, rfl⟩ := (emitRaw_eq_ok hm).mp h
  exact ⟨rfl, rfl, length_raw hm hle, rfl, take_splice (hle.trans hm), by simp [Pack.raw]⟩

theorem wrote_entry (h : slPackEntry type val m p = .ok p') :
    Wrote p p' (word (slPackTag sqTypeComplex 1 (p.tocIdx + 1)))
      [slPackTag type ((p.offset + slOffsetDelta) / 8) val] := by
  obtain ⟨⟨_, htoc⟩, ⟨_, hbuf⟩, rfl⟩ := slPackEntry_eq_ok.mp h
  refine ⟨rfl, rfl, length_splice_word _ hbuf, length_splice_word _ htoc,
    take_splice_word _ hbuf, ?_⟩
  have ht := take_splice_word (slPackTag type ((p.offset + slOffsetDelta) / 8) val) htoc
  simpa only [Pack.entry, add_mul, flatMap_singleton] using ht

/-- The header of a document takes the two lengths. -/
theorem splice_header {x y : List UInt8} (hb : b.length = 16) (hmagic : b.take 8 = magic)
    (hx : x.length = 4) (hy : y.length = 4) :
    splice (splice (b ++ buf) 8 x) 12 y = magic ++ x ++ y ++ buf := by
  obtain ⟨v, w, hvw, hv, hw⟩ : ∃ v w, b.drop 8 = v ++ w ∧ v.length = 4 ∧ w.length = 4 :=
    ⟨(b.drop 8).take 4, (b.drop 8).drop 4, (take_append_drop _ _).symm, by
      rw [length_take, length_drop]; omega, by
      rw [length_drop, length_drop]; omega⟩
  have hbuf : b ++ buf = magic ++ (v ++ (w ++ buf)) := by
    rw [← append_assoc v, ← hvw, ← hmagic, ← append_assoc, take_append_drop]
  have h₁ : splice (magic ++ (v ++ (w ++ buf))) 8 x = magic ++ (x ++ (w ++ buf)) :=
    splice_segment (w ++ buf) (hv.trans hx.symm)
  have h₂ : splice ((magic ++ x) ++ (w ++ buf)) (magic ++ x).length y =
      (magic ++ x) ++ (y ++ buf) :=
    splice_segment buf (hw.trans hy.symm)
  have h12 : (magic ++ x).length = 12 := by rw [length_append, hx]; rfl
  rw [h12] at h₂
  rw [hbuf, h₁, ← append_assoc, h₂, ← append_assoc]

theorem take_header (buf : List UInt8) (hd : buf.take d.length = d) (hb : b.length = 16) :
    (b ++ buf).take (16 + d.length) = b ++ d := by
  rw [← hb, take_length_add_append, hd]

/-- The table of contents closes a document whose data and entries are in place. -/
theorem wrote_toc {tocBuf toc b' : List UInt8} (hb : b.length = 16) (hmagic : b.take 8 = magic)
    (hd : buf.take d.length = d) (htoc : tocBuf.length = 8)
    (ht : toc.take (t.length * 8) = t.flatMap word)
    (h : slPackToc (b ++ buf) (tocBuf ++ toc) d.length t.length m = .ok (b', n)) :
    n = docSize d.length t.length ∧ n < m ∧ b'.length = (b ++ buf).length ∧
      b'.take n = docBytes d t := by
  unfold slPackToc at h
  simp only [bind_eq_ok, sivalc_eq_ok, slvalc_eq_ok] at h
  obtain ⟨_, ⟨_, _, rfl⟩, _, ⟨_, _, rfl⟩, _, ⟨_, _, rfl⟩, h⟩ := h
  rw [splice_header hb hmagic (length_leBytes 4 _) (length_leBytes 4 _)] at h
  have hentries : splice (tocBuf ++ toc) 0 (word (slPackTag sqTypeToc (t.length + 1) 0)) =
      word (slPackTag sqTypeToc (t.length + 1) 0) ++ toc :=
    @splice_segment _ [] tocBuf toc (by rw [htoc, length_word])
  split_ifs at h with hfit
  split at h
  next => exact absurd h (by simp)
  next entries hread =>
    have hword := length_word (slPackTag sqTypeToc (t.length + 1) 0)
    obtain ⟨hle, hread⟩ := read_eq_some.mp hread
    have hlen : entries.length = (t.length + 1) * 8 := by
      rw [← hread, length_take, length_drop]
      omega
    have heq : entries = word (slPackTag sqTypeToc (t.length + 1) 0) ++ t.flatMap word := by
      rw [← hread, ← ht]
      refine (congrArg (take _) hentries).trans ?_
      rw [take_append, take_of_length_le (by omega), hword,
        show (t.length + 1) * 8 - 8 = t.length * 8 by omega]
    obtain ⟨b₁, hput, h⟩ := bind_eq_ok.mp h
    cases h
    obtain ⟨hfits, rfl⟩ := put_eq_ok.mp hput
    refine ⟨by unfold docSize; omega, by omega, ?_, ?_⟩
    · rw [length_splice hfits]
      simp only [length_append, length_leBytes, hb, magic, length_cons, length_nil]
    · have hsplice := take_splice hfits
      rw [hlen] at hsplice
      rw [show d.length + 16 + (t.length + 1) * 8 = 16 + d.length + (t.length + 1) * 8 by omega,
        hsplice, heq, take_header _ hd (by simp [magic])]
      simp only [docBytes, append_assoc]

theorem bodySize_le (n : ℕ) : bodySize n ≤ n := by
  unfold bodySize
  split_ifs <;> omega

/-- A call wrote this document into the start of its buffer. -/
structure WroteDoc (buf buf' : List UInt8) (m n : ℕ) (doc : List UInt8) : Prop where
  size : n = doc.length
  lt : n < m
  length : buf'.length = buf.length
  take : buf'.take n = doc

theorem wrote_doc (hloop : ∀ m p p', m ≤ p.buf.length → loop m p = .ok p' →
      Wrote p p' (dataAll p.tocIdx items) (tocAll p.offset items)) (hm : m ≤ buf.length)
    (hok : slPackLenOf h loop buf m = .ok (buf', n)) :
    WroteDoc buf buf' m n (docBytes (dataAll 0 items) (tocAll 0 items)) := by
  unfold slPackLenOf at hok
  split_ifs at hok with hsmall
  obtain ⟨b, hput, hok⟩ := bind_eq_ok.mp hok
  obtain ⟨p, hp, hok⟩ := bind_eq_ok.mp hok
  obtain ⟨hfit, rfl⟩ := put_eq_ok.mp hput
  have hlen := length_splice hfit
  have hw := hloop _ _ _ (by rw [length_drop]; omega) hp
  have ho : p.offset = (dataAll 0 items).length := hw.offset.trans (zero_add _)
  have hi : p.tocIdx = (tocAll 0 items).length := hw.tocIdx.trans (zero_add _)
  have hmagic : ((splice buf 0 magic).take 16).take 8 = magic := by
    exact take_splice hfit
  rw [ho, hi] at hok
  obtain ⟨hn, hlt, hl, ht⟩ := wrote_toc (by rw [length_take]; omega) hmagic
    (by rw [← ho]; exact hw.buf) (by rw [length_take, Vector.length_toList]; rfl)
    (by rw [← hi]; exact hw.toc) hok
  refine ⟨by rw [length_docBytes]; exact hn, hlt, ?_, ht⟩
  rw [hl, length_append, length_take, hw.bufLength, length_drop]
  omega

/-- The buffer behind a nested document and the two tags in front of it. -/
theorem splice_filemeta (sub : List UInt8) {o : ℕ} (c d : ℕ) (h : o + 16 ≤ buf.length) :
    splice ((splice buf o (word c)).take (o + 16) ++ sub) (o + 8) (word d) =
      buf.take o ++ word c ++ (word d ++ sub) := by
  have hb : (buf.take o ++ word c).length = o + 8 := by
    rw [length_append, length_take, length_word]
    omega
  obtain ⟨x, htake, hx⟩ : ∃ x, (splice buf o (word c)).take (o + 16) = buf.take o ++ word c ++ x ∧
      x.length = (word d).length := by
    refine ⟨((splice buf o (word c)).drop (o + 8)).take 8, ?_, ?_⟩
    · rw [← take_splice_word c (by omega), ← take_add]
    · rw [length_take, length_drop, length_splice_word c (by omega), length_word]
      omega
  rw [htake, append_assoc, ← hb]
  exact splice_segment sub hx

theorem wrote_filemeta {len : List UInt8 → ℕ → Except Err (List UInt8 × ℕ)} {doc : List UInt8}
    (hlen : ∀ buf buf' m n, m ≤ buf.length → len buf m = .ok (buf', n) → WroteDoc buf buf' m n doc)
    (hm : m ≤ p.buf.length) (hok : slPackFilemeta len m p = .ok p') :
    Wrote p p' (word (slPackTag sqTypeComplex 1 (p.tocIdx + 1)) ++
        (word (slPackTag sqTypeData (bodySize doc.length / 8 + 1) 8) ++
          doc.take (bodySize doc.length)))
      [slPackTag sqCpxTypeFilemeta ((p.offset + slOffsetDelta) / 8) (bodySize doc.length / 8)] := by
  obtain ⟨b, hb, hok⟩ := bind_eq_ok.mp hok
  obtain ⟨hc, hc', rfl⟩ := slvalc_eq_ok.mp hb
  dsimp only at hok
  split_ifs at hok with hsmall
  obtain ⟨⟨sub, n⟩, hsub, hok⟩ := bind_eq_ok.mp hok
  obtain ⟨rfl, _, hsl, hst⟩ := hlen _ _ _ _
    (by rw [length_drop]; rw [length_splice_word _ hc']; omega) hsub
  obtain ⟨b, hb, hok⟩ := bind_eq_ok.mp hok
  obtain ⟨hd, hd', rfl⟩ := slvalc_eq_ok.mp hb
  obtain ⟨toc, htoc, hok⟩ := bind_eq_ok.mp hok
  obtain ⟨ht, ht', rfl⟩ := slvalc_eq_ok.mp htoc
  cases hok
  have hle := bodySize_le doc.length
  have hbody : (doc.take (bodySize doc.length)).length = bodySize doc.length := by
    rw [length_take, min_eq_left hle]
  have hsub : sub.take (bodySize doc.length) = doc.take (bodySize doc.length) := by
    rw [← congrArg (take (bodySize doc.length)) hst, take_take, min_eq_left hle]
  have hsplice := splice_filemeta sub (slPackTag sqTypeComplex 1 (p.tocIdx + 1))
    (slPackTag sqTypeData (bodySize doc.length / 8 + 1) 8)
    (show p.offset + 16 ≤ p.buf.length by omega)
  refine ⟨?_, rfl, ?_, length_splice_word _ ht', ?_, ?_⟩
  · show p.offset + 16 + bodySize doc.length = _
    simp only [length_append, length_word]
    omega
  · refine (length_splice_word _ hd').trans ?_
    rw [length_append, hsl, length_take, length_drop, length_splice_word _ hc']
    omega
  · have hhead : (p.buf.take p.offset ++ word (slPackTag sqTypeComplex 1 (p.tocIdx + 1)) ++
        word (slPackTag sqTypeData (bodySize doc.length / 8 + 1) 8)).length = p.offset + 16 := by
      simp only [length_append, length_take, length_word]
      omega
    refine (congrArg (take (p.offset + 16 + bodySize doc.length)) hsplice).trans ?_
    rw [← append_assoc, ← hhead, take_length_add_append, hsub]
    simp only [append_assoc]
  · have htake := take_splice_word
      (slPackTag sqCpxTypeFilemeta ((p.offset + slOffsetDelta) / 8) (bodySize doc.length / 8)) ht'
    unfold bodySize at htake ⊢
    simpa only [add_mul, flatMap_singleton] using htake

mutual
theorem emit_wrote (h : Host) : (i : Item) → ∀ m p p', m ≤ p.buf.length → emit h i m p = .ok p' →
    Wrote p p' (i.data p.tocIdx) (i.toc p.offset)
  | .raw bs, m, p, p', hm, hok => by
      exact wrote_raw hm hok
  | .entry type val bs, m, p, p', hm, hok => by
      obtain ⟨q, hq, hok⟩ := bind_eq_ok.mp hok
      have hw := wrote_entry hq
      rw [Item.data]
      exact hw.trans (wrote_raw (by rw [hw.bufLength]; exact hm) hok)
  | .doc items, m, p, p', hm, hok => by
      have hdoc : (docBytes (dataAll 0 items) (tocAll 0 items)).length =
          docSize (sizeAll items) (tocsAll items) := by
        rw [length_docBytes, length_dataAll, length_tocAll]
      have hw := wrote_filemeta
        (fun _ _ _ _ hm => wrote_doc (emitAll_wrote h items) hm) hm hok
      rw [hdoc] at hw
      exact hw
  | .bad, m, p, p', hm, hok => by simp [emit] at hok

/-- What the packer has written is the layout. -/
theorem emitAll_wrote (h : Host) : (is : List Item) → ∀ m p p', m ≤ p.buf.length →
    emitAll h is m p = .ok p' → Wrote p p' (dataAll p.tocIdx is) (tocAll p.offset is)
  | [], m, p, p', hm, hok => by
      cases hok
      exact .refl p
  | i :: is, m, p, p', hm, hok => by
      obtain ⟨q, hq, hok⟩ := bind_eq_ok.mp hok
      have hw := emit_wrote h i m p q hm hq
      have hr := emitAll_wrote h is m q p' (by rw [hw.bufLength]; exact hm) hok
      rw [hw.offset, hw.tocIdx, i.length_data, i.length_toc] at hr
      exact hw.trans hr
end

/-! ### The packer emits the layout -/

theorem slPackLenOf_congr (h : Host) {f g : ℕ → Pack → Except Err Pack}
    (hfg : ∀ m p, m ≤ p.buf.length → f m p = g m p) (hm : m ≤ buf.length) :
    slPackLenOf h f buf m = slPackLenOf h g buf m := by
  unfold slPackLenOf
  split_ifs with hsmall
  · rfl
  refine bind_congr_ok fun b hb => ?_
  obtain ⟨hfit, rfl⟩ := put_eq_ok.mp hb
  rw [hfg _ _ (by rw [length_drop, length_splice hfit]; omega)]

theorem slPackFilemeta_congr {f g : List UInt8 → ℕ → Except Err (List UInt8 × ℕ)}
    (hfg : ∀ buf m, m ≤ buf.length → f buf m = g buf m) (hm : m ≤ p.buf.length) :
    slPackFilemeta f m p = slPackFilemeta g m p := by
  refine bind_congr_ok fun b hb => ?_
  obtain ⟨_, hfit, rfl⟩ := slvalc_eq_ok.mp hb
  dsimp only
  split_ifs with hsmall
  · rfl
  rw [hfg _ _ (by rw [length_drop, length_splice_word _ hfit]; omega)]

theorem slPackMembers_eq {count : ℕ}
    (hloop : ∀ m p, m ≤ p.buf.length → loop m p = emitAll h items m p) (hm : m ≤ p.buf.length) :
    slPackMembers type count loop m p = emitAll h (.entry type count [] :: items) m p := by
  rw [emitAll, emit]
  unfold slPackMembers
  dsimp only
  cases hq : slPackEntry type count m p with
  | error => rfl
  | ok =>
    have hw := wrote_entry hq
    obtain ⟨_, ⟨hfit, _⟩, rfl⟩ := slPackEntry_eq_ok.mp hq
    have hm' := hm
    rw [← hw.bufLength] at hm'
    rw [ok_bind, hloop _ _ hm', ok_bind, emitRaw_nil hm' hfit, ok_bind]

mutual
theorem slPackNode_eq_emitAll (h : Host) : (n : Node) → ∀ m p, m ≤ p.buf.length →
    slPackNode h n m p = emitAll h (n.items h) m p
  | .array xs, m, p, hm => by
      exact slPackMembers_eq (slPackLoop_eq_emitAll h xs) hm
  | .dict xs, m, p, hm => by
      rw [slPackNode, Node.items]
      exact slPackMembers_eq (slPackLoop_eq_emitAll h xs) hm
  | .filemeta xs, m, p, hm => by
      rw [slPackNode, Node.items, emitAll_singleton, emit]
      exact slPackFilemeta_congr
        (fun _ _ hm => slPackLenOf_congr h (slPackLoop_eq_emitAll h xs) hm) hm
  | .uint64 _, m, p, hm | .double _, m, p, hm | .date _, m, p, hm => by
      rw [slPackNode, Node.items, emitAll_singleton, emit]
      exact slPackWord_eq hm _ _
  | .string block, m, p, hm => by
      rw [slPackNode, slPackString_eq hm, Node.items]
      cases stringOf block with
      | none | some => rw [emitAll_singleton, emit]
  | .bool _, m, p, hm | .nil, m, p, hm => by
      rw [slPackNode, Node.items, emitAll_singleton, emit]
      exact slPackLone_eq _
  | .uuid u, m, p, hm => by
      rw [slPackNode, Node.items, emitAll_singleton, emit]
      exact slPackUuid_eq hm u
  | .cnids unkn1 context ids, m, p, hm => by
      rw [slPackNode, Node.items, emitAll_singleton, emit]
      exact slPackCNID_eq hm unkn1 context ids
  | .other, m, p, hm => by
      rw [slPackNode, Node.items, emitAll]

/-- The packer's loop emits the layout of its values. -/
theorem slPackLoop_eq_emitAll (h : Host) : (xs : List Node) → ∀ m p, m ≤ p.buf.length →
    slPackLoop h xs m p = emitAll h (flatten h xs) m p
  | [], m, p, hm => rfl
  | x :: xs, m, p, hm => by
      rw [slPackLoop, flatten, emitAll_append, slPackNode_eq_emitAll h x m p hm]
      refine bind_congr_ok fun q hq => slPackLoop_eq_emitAll h xs m q ?_
      rw [(emitAll_wrote h _ m p q hm hq).bufLength]
      exact hm
end

/-- The document of a tree. -/
def document (h : Host) (query : List Node) : List UInt8 :=
  docBytes (dataAll 0 (flatten h query)) (tocAll 0 (flatten h query))

theorem slPackLen_eq_emitAll (h : Host) (query : List Node) (hm : m ≤ buf.length) :
    slPackLen h query buf m = slPackLenOf h (emitAll h (flatten h query)) buf m :=
  slPackLenOf_congr h (slPackLoop_eq_emitAll h query) hm

/-- A packed tree is the document of its layout. -/
theorem slPackLen_layout {query : List Node} (hm : m ≤ buf.length)
    (hok : slPackLen h query buf m = .ok (buf', n)) : WroteDoc buf buf' m n (document h query) := by
  rw [slPackLen_eq_emitAll h query hm] at hok
  exact wrote_doc (emitAll_wrote h _) hm hok

end Netatalk.Spotlight
