import Netatalk.SpotlightToc
import Netatalk.SpotlightUnpack

/-! # Packed trees unpack to themselves

A tree of booleans, nils, integers, doubles, UUIDs, strings, CNID sets, arrays, dictionaries and
file metadata is read back from the document the packer makes of it (`slUnpackLen_slPack`).  The
proof follows the layout of the tree: wherever the data and the entries of a value are placed in
a document, the round of the unpacker at that offset reads the value (`Reads`). -/

namespace Netatalk.Spotlight

open List hiding Vector
open Item (size tocs)
open Node (items)
open Netatalk.Bytes Netatalk.Fallible

/-! ### Tags -/

theorem slPackTag_lt (type size val : ℕ) : slPackTag type size val < 2 ^ 64 := by
  unfold slPackTag
  omega

@[simp] theorem tagSize_slPackTag (type size val : ℕ) :
    tagSize (slPackTag type size val) = size % 2 ^ 16 := by
  unfold tagSize slPackTag
  omega

@[simp] theorem tagType_slPackTag (type size val : ℕ) :
    tagType (slPackTag type size val) = type % 2 ^ 16 := by
  unfold tagType slPackTag
  omega

@[simp] theorem tagVal_slPackTag (type size val : ℕ) :
    tagVal (slPackTag type size val) = val % 2 ^ 32 := by
  unfold tagVal slPackTag
  omega

theorem tagSize_of_lt {size : ℕ} (h : size < 2 ^ 16) (type val : ℕ) :
    tagSize (slPackTag type size val) = size := by
  rw [tagSize_slPackTag, Nat.mod_eq_of_lt h]

theorem tagVal_of_lt {val : ℕ} (h : val < 2 ^ 32) (type size : ℕ) :
    tagVal (slPackTag type size val) = val := by
  rw [tagVal_slPackTag, Nat.mod_eq_of_lt h]

/-! ### Reads of known bytes -/

variable {bs buf : List UInt8} {context : UInt32} {e idx m n o offset size type val w : ℕ}
  {ids : List UInt64} {items : List Item} {r : Node × ℕ} {s : List UInt8}
  {sub : List UInt8 → Except UnpackErr (List Node)} {u : Vector UInt8 16} {unkn1 : UInt16}
  {v : UInt64} {value : UInt64 → Node} {xs ys : List Node}

theorem get_bytes (hb : BytesAt buf offset bs) (hn : bs.length = n) :
    get buf offset n = .ok bs := by
  rw [get, ← hn, hb.read]

theorem range_bytes (hb : BytesAt buf offset bs) (hn : n ≤ bs.length) :
    slUnpackRangeValid buf.length offset n = true := by
  have hle := hb.le
  rw [slUnpackRangeValid_iff]
  omega

theorem slUnpackUint64_word (hb : BytesAt buf offset (word w)) (hw : w < 2 ^ 64) :
    slUnpackUint64 buf offset .littleEndian = .ok w := by
  rw [slUnpackUint64, get_bytes hb (length_word w), ok_bind, word]
  rw [leNat_leBytes, Nat.mod_eq_of_lt (by omega)]
  rfl

theorem slUnpackUint64Checked_word (hb : BytesAt buf offset (word w)) (hw : w < 2 ^ 64) :
    slUnpackUint64Checked buf offset .littleEndian = .ok w := by
  rw [slUnpackUint64Checked, if_pos (range_bytes hb (length_word w).ge), slUnpackUint64_word hb hw]

theorem slUnpackUint64Checked_tag (hb : BytesAt buf offset (word (slPackTag type size val) ++ bs)) :
    slUnpackUint64Checked buf offset .littleEndian = .ok (slPackTag type size val) :=
  slUnpackUint64Checked_word hb.left (slPackTag_lt _ _ _)

theorem behind_word (hb : BytesAt buf offset (word w ++ bs)) : BytesAt buf (offset + 8) bs := by
  have hbehind := hb.right
  rwa [length_word] at hbehind

theorem slUnpackWords_flatMap (ws : List UInt64)
    (hb : BytesAt buf offset (ws.flatMap fun w => word w.toNat)) :
    slUnpackWords buf .littleEndian ws.length offset = .ok (ws.map UInt64.toNat) := by
  induction ws generalizing offset with
  | nil => rfl
  | cons w ws ih =>
    rw [length_cons, slUnpackWords, slUnpackUint64Checked_word hb.left w.toNat_lt,
      ih (behind_word hb)]
    rfl

/-! ### Layouts in a row -/

theorem sizeAll_append (is js : List Item) : sizeAll (is ++ js) = sizeAll is + sizeAll js := by
  induction is with
  | nil => rw [nil_append, sizeAll, zero_add]
  | cons i is ih => rw [cons_append, sizeAll, sizeAll, ih, add_assoc]

theorem dataAll_append (idx : ℕ) (is js : List Item) :
    dataAll idx (is ++ js) = dataAll idx is ++ dataAll (idx + tocsAll is) js := by
  induction is generalizing idx with
  | nil => rw [nil_append, dataAll, nil_append, tocsAll_nil, add_zero]
  | cons i is ih =>
    rw [cons_append, dataAll, dataAll, ih, append_assoc, tocsAll_cons, add_assoc]

theorem tocAll_append (o : ℕ) (is js : List Item) :
    tocAll o (is ++ js) = tocAll o is ++ tocAll (o + sizeAll is) js := by
  induction is generalizing o with
  | nil => rw [nil_append, tocAll, nil_append, sizeAll, add_zero]
  | cons i is ih =>
    rw [cons_append, tocAll, tocAll, ih, append_assoc, sizeAll, add_assoc]

theorem Item.tocs_le_size (i : Item) : i.tocs * 8 ≤ i.size := by
  cases i <;> simp only [tocs, size] <;> omega

theorem tocsAll_le_sizeAll (is : List Item) : tocsAll is * 8 ≤ sizeAll is := by
  induction is with
  | nil => exact zero_le
  | cons i is ih =>
    have hi := i.tocs_le_size
    rw [tocsAll_cons, sizeAll]
    omega

theorem Item.toc_lt {i : Item} (he : e ∈ i.toc o) : e < 2 ^ 64 := by
  cases i with
  | raw | bad => simp [Item.toc] at he
  | entry | doc =>
    obtain rfl := mem_singleton.mp he
    exact slPackTag_lt _ _ _

theorem tocAll_lt {is : List Item} (he : e ∈ tocAll o is) : e < 2 ^ 64 := by
  induction is generalizing o with
  | nil => simp [tocAll] at he
  | cons i is ih =>
    rw [tocAll, mem_append] at he
    rcases he with he | he
    · exact Item.toc_lt he
    · exact ih he

theorem octets_spec (n : ℕ) : octets n * 8 + usedInLastOctet n = n + 8 ∧ usedInLastOctet n ≤ 8 := by
  unfold octets usedInLastOctet
  split_ifs <;> omega

theorem docSize_mod {size : ℕ} (h : size % 8 = 0) (tocs : ℕ) : docSize size tocs % 8 = 0 := by
  unfold docSize
  omega

theorem bodySize_mod (h : n % 8 = 0) : bodySize n % 8 = 0 := by
  unfold bodySize
  split_ifs
  · exact h
  · rfl

theorem length_stringBytes (s : List UInt8) : (stringBytes s).length = 8 + octets s.length * 8 := by
  have hoct := octets_spec s.length
  rw [stringBytes, length_append, length_word, length_append, length_replicate]
  omega

theorem length_flatMap_toNat (ids : List UInt64) :
    (ids.flatMap fun id => word id.toNat).length = ids.length * 8 := by
  have hmap := length_flatMap_word (ids.map UInt64.toNat)
  rwa [flatMap_map, length_map] at hmap

theorem length_cnidBytes (unkn1 : UInt16) (context : UInt32) (ids : List UInt64) :
    (cnidBytes unkn1 context ids).length = if 0 < ids.length then 16 + ids.length * 8 else 8 := by
  unfold cnidBytes
  split_ifs
  · rw [length_append, length_append, length_word, length_word, length_flatMap_toNat]
    omega
  · exact length_word _

mutual
theorem Node.sizeAll_items_mod (h : Host) : (n : Node) → sizeAll (n.items h) % 8 = 0
  | .array xs | .dict xs => by
      have hxs := sizeAll_flatten_mod h xs
      rw [items, sizeAll, size, length_nil]
      omega
  | .filemeta xs => by
      have hdoc := bodySize_mod (docSize_mod (sizeAll_flatten_mod h xs) (tocsAll (flatten h xs)))
      rw [items, sizeAll, sizeAll, size]
      omega
  | .uint64 _ | .bool _ | .double _ | .nil | .date _ | .uuid _ => by simp [items, sizeAll, size]
  | .string block => by
      rw [items]
      cases stringOf block with
      | none => rfl
      | some s =>
        rw [sizeAll, sizeAll, size, length_stringBytes]
        omega
  | .cnids unkn1 context ids => by
      rw [items, sizeAll, sizeAll, size, length_cnidBytes]
      split_ifs <;> omega
  | .other => rfl

theorem sizeAll_flatten_mod (h : Host) : (xs : List Node) → sizeAll (flatten h xs) % 8 = 0
  | [] => rfl
  | x :: xs => by
      have hx := x.sizeAll_items_mod h
      have hxs := sizeAll_flatten_mod h xs
      rw [flatten, sizeAll_append]
      omega
end

/-! ### One element of a document -/

/-- The bytes of a table of contents. -/
def tocBytes (toc : List ℕ) : List UInt8 :=
  word (slPackTag sqTypeToc (toc.length + 1) 0) ++ toc.flatMap word

/-- The bytes of a document behind its header. -/
def region (data : List UInt8) (toc : List ℕ) : List UInt8 := data ++ tocBytes toc

/-- The table of contents of a document. -/
def tocOf (data : List UInt8) (toc : List ℕ) : Toc :=
  ⟨data.length + 8, toc.length, .littleEndian⟩

/-- The bounds a document has to keep for the unpacker. -/
structure Readable (data : List UInt8) (toc : List ℕ) : Prop where
  size : data.length ≤ tocOffsetMax
  tocs : toc.length * 8 ≤ data.length
  lt : ∀ e ∈ toc, e < 2 ^ 64

theorem length_region (data : List UInt8) (toc : List ℕ) :
    (region data toc).length = data.length + 8 + toc.length * 8 := by
  rw [region, tocBytes, length_append, length_append, length_word, length_flatMap_word,
    add_assoc]

/-- The round of the unpacker's loop on a document. -/
def round (h : Host) (frames depth : ℕ) (data : List UInt8) (toc : List ℕ) :
    ℕ → ℕ → Except UnpackErr (List Node × ℕ × ℕ) :=
  slUnpackStep h (slUnpackCpx h frames (region data toc) (tocOf data toc) depth)
    (region data toc) (tocOf data toc).offset (tocOf data toc).count (tocOf data toc).enc

section element
variable {h : Host} {frames depth count : ℕ} {data : List UInt8} {toc t₀ t₁ : List ℕ}

theorem bytesAt_region (hb : BytesAt data offset bs) (toc : List ℕ) :
    BytesAt (region data toc) offset bs := by
  obtain ⟨a, c, rfl, ha⟩ := hb
  exact ⟨a, c ++ tocBytes toc, by simp only [region, append_assoc], ha⟩

theorem bytesAt_entry (data : List UInt8) (t₀ t₁ : List ℕ) (e : ℕ) :
    BytesAt (region data (t₀ ++ e :: t₁)) (data.length + 8 + t₀.length * 8) (word e) := by
  refine ⟨data ++ (word (slPackTag sqTypeToc ((t₀ ++ e :: t₁).length + 1) 0) ++ t₀.flatMap word),
    t₁.flatMap word, ?_, ?_⟩
  · simp only [region, tocBytes, flatMap_append, flatMap_cons, append_assoc]
  · rw [length_append, length_append, length_word, length_flatMap_word, add_assoc]

/-- The compound element at an offset is read with its entry. -/
theorem slUnpackTocEntry_region {q : ℕ} (hr : Readable data (t₀ ++ e :: t₁))
    (hq : tagVal q = t₀.length + 1) :
    slUnpackTocEntry (region data (t₀ ++ e :: t₁)) q (data.length + 8) (t₀ ++ e :: t₁).length
      .littleEndian = .ok e := by
  have hsize := hr.size
  have htocs := hr.tocs
  have hlen : (t₀ ++ e :: t₁).length = t₀.length + (t₁.length + 1) := by
    rw [length_append, length_cons]
  have hb := bytesAt_entry data t₀ t₁ e
  unfold tocOffsetMax at hsize
  unfold slUnpackTocEntry
  rw [if_neg (by omega), hq, Nat.add_sub_cancel]
  rw [if_neg]
  · exact slUnpackUint64_word hb (hr.lt e (by simp))
  · unfold sizeMax intMax
    rw [range_bytes hb (length_word e).ge]
    simp only [Bool.true_eq_false, or_false]
    omega

/-- A round reads the tag of an element and goes on with its type. -/
theorem round_element (hb : BytesAt data offset (word (slPackTag type size val) ++ bs))
    (hpos : 0 < size) (hlt : size < 2 ^ 16) (hbs : size * 8 ≤ 8 + bs.length) :
    round h frames depth data toc offset count =
      slUnpackSwitch h (slUnpackCpx h frames (region data toc) (tocOf data toc) depth)
        (region data toc) (data.length + 8) toc.length .littleEndian (slPackTag type size val)
        offset count := by
  have hbr := bytesAt_region hb toc
  have hrange : slUnpackRangeValid (region data toc).length offset (size * 8) = true :=
    range_bytes hbr (by rwa [length_append, length_word])
  have hread : slUnpackUint64Checked (region data toc) offset (tocOf data toc).enc =
      .ok (slPackTag type size val) := slUnpackUint64Checked_tag hbr
  rw [round, slUnpackStep, hread, ok_bind, tagSize_of_lt hlt, if_neg (by omega),
    if_neg (by rw [hrange]; simp)]
  rfl

/-- A round reads a compound element by its entry. -/
theorem round_complex {c : Except UnpackErr (Node × ℕ)} (hr : Readable data (t₀ ++ e :: t₁))
    (hb : BytesAt data offset (word (slPackTag sqTypeComplex 1 (t₀.length + 1)) ++ bs))
    (hcpx : slUnpackCpx h frames (region data (t₀ ++ e :: t₁)) (tocOf data (t₀ ++ e :: t₁)) depth
      (offset + 8) (tagType e) (tagVal e) = c) :
    round h frames depth data (t₀ ++ e :: t₁) offset (count + 1) =
      c >>= fun r => .ok ([r.1], r.2, count) := by
  have htocs := hr.tocs
  have hsize := hr.size
  unfold tocOffsetMax at hsize
  rw [length_append] at htocs
  have hval := tagVal_of_lt (show t₀.length + 1 < 2 ^ 32 by omega) sqTypeComplex 1
  rw [round_element hb (by decide) (by decide) (by omega), slUnpackSwitch, tagType_slPackTag,
    slUnpackTocEntry_region hr hval, ok_bind, hcpx]
  rfl

theorem round_nil (hb : BytesAt data offset (word (slPackTag sqTypeNull 1 1) ++ [])) :
    round h frames depth data toc offset (count + 1) = .ok ([.nil], offset + 8, count) := by
  rw [round_element hb (by decide) (by decide) (by decide), slUnpackSwitch,
    if_neg (by decide), if_pos (by rfl)]
  simp [slUnpackCounted]

theorem round_bool {b : Bool}
    (hb : BytesAt data offset (word (slPackTag sqTypeBool 1 (if b then 1 else 0)) ++ [])) :
    round h frames depth data toc offset (count + 1) = .ok ([.bool b], offset + 8, count) := by
  rw [round_element hb (by decide) (by decide) (by decide), slUnpackSwitch, tagType_slPackTag]
  cases b <;> rfl

/-- The values of a word element. -/
theorem slUnpackValues_word (hb : BytesAt buf offset (word (slPackTag type 2 1) ++ word v.toNat)) :
    slUnpackValues value buf offset 16 .littleEndian = .ok [value v] := by
  have hcount : slUnpackCount (slPackTag type 2 1) 16 8 = .ok 1 := by
    rw [slUnpackCount, tagVal_slPackTag]
    rfl
  rw [slUnpackValues, slUnpackUint64Checked_tag hb, ok_bind, hcount, ok_bind, slUnpackWords,
    slUnpackUint64Checked_word (behind_word hb) v.toNat_lt, slUnpackWords]
  simp

theorem round_word
    (hvalue : (type = sqTypeInt64 ∧ value = .uint64) ∨ (type = sqTypeFloat ∧ value = .double))
    (hb : BytesAt data offset (word (slPackTag type 2 1) ++ word v.toNat)) :
    round h frames depth data toc offset (count + 1) = .ok ([value v], offset + 16, count) := by
  have hvalues : slUnpackValues value (region data toc) offset
      (tagSize (slPackTag type 2 1) * 8) .littleEndian = .ok [value v] := by
    rw [tagSize_slPackTag]
    exact slUnpackValues_word (bytesAt_region hb toc)
  rw [round_element hb (by decide) (by decide) (by rw [length_word]), slUnpackSwitch]
  rcases hvalue with ⟨rfl, rfl⟩ | ⟨rfl, rfl⟩
  · rw [slUnpackInts, hvalues, if_neg (by decide), ok_bind, slUnpackCounted]
    rfl
  · rw [slUnpackFloats, hvalues, if_neg (by decide), if_neg (by decide), if_neg (by decide),
      if_neg (by decide), ok_bind]
    rfl

theorem slUnpackUuid_word (hb : BytesAt buf offset (word (slPackTag sqTypeUuid 3 1) ++ u.toList)) :
    slUnpackUuid buf offset 24 .littleEndian = .ok [.uuid u] := by
  have hu : u.toList.length = 16 := u.length_toList
  have hbehind := behind_word hb
  have hcount : slUnpackCount (slPackTag sqTypeUuid 3 1) 24 16 = .ok 1 := by
    rfl
  have hvec : (Vector.ofFn fun i : Fin 16 => u.toList.getD i 0) = u := by
    apply Vector.ext
    intro i hi
    simp
  rw [slUnpackUuid, slUnpackUint64Checked_tag hb, ok_bind, hcount, ok_bind, slUnpackUuids,
    if_pos (range_bytes hbehind hu.ge), get_bytes hbehind hu, ok_bind, hvec]
  rfl

theorem round_uuid (hb : BytesAt data offset (word (slPackTag sqTypeUuid 3 1) ++ u.toList)) :
    round h frames depth data toc offset (count + 1) = .ok ([.uuid u], offset + 24, count) := by
  have huuid : slUnpackUuid (region data toc) offset (tagSize (slPackTag sqTypeUuid 3 1) * 8)
      .littleEndian = .ok [.uuid u] := by
    exact slUnpackUuid_word (bytesAt_region hb toc)
  rw [round_element hb (by decide) (by decide) (by rw [u.length_toList]), slUnpackSwitch]
  rw [huuid, if_neg (by decide), if_neg (by decide), ok_bind, slUnpackCounted]
  rfl

end element

/-! ### Compound elements -/

theorem takeWhile_terminated (hs : 0 ∉ s) (r : List UInt8) :
    (s ++ r).takeWhile (· != 0) = s ++ r.takeWhile (· != 0) := by
  apply takeWhile_append_of_pos
  intro b hb
  simp only [bne_iff_ne]
  rintro rfl
  exact hs hb

theorem dallocStrndup_eq (hs : 0 ∉ s) : dallocStrndup s = s ++ [0] := by
  have hall := takeWhile_terminated hs []
  rw [takeWhile_nil, append_nil] at hall
  rw [dallocStrndup, hall]

theorem stringOf_terminated (hs : 0 ∉ s) :
    stringOf (s ++ [0]) = if intMax < s.length then none else some s := by
  have hlen : strnlen (s ++ [0]) = s.length := by
    rw [strnlen, takeWhile_terminated hs, takeWhile_cons_of_neg (by simp), append_nil]
  rw [stringOf, hlen, take_left, length_append, length_singleton]
  apply if_congr _ rfl rfl
  omega

section compound
variable {h : Host} {tocOffset : ℕ}

theorem slUnpackString_bytes (hne : s ≠ []) (hs : 0 ∉ s) (hsize : octets s.length + 1 < 2 ^ 16)
    (hb : BytesAt buf offset (stringBytes s)) (htoc : offset + 8 + s.length ≤ tocOffset) :
    slUnpackString h false buf offset tocOffset .littleEndian =
      .ok (.string (s ++ [0]), offset + 8 + octets s.length * 8) := by
  obtain ⟨hoct, hused⟩ := octets_spec s.length
  have hpos : 0 < s.length := length_pos_of_ne_nil hne
  have hrange : slUnpackRangeValid buf.length offset ((octets s.length + 1) * 8) = true :=
    range_bytes hb (by rw [length_stringBytes]; omega)
  have hslen : (octets s.length + 1) * 8 - 16 + usedInLastOctet s.length = s.length := by omega
  rw [slUnpackString, slUnpackUint64Checked_tag hb, ok_bind]
  rw [tagVal_of_lt (by omega), tagSize_of_lt hsize, if_neg (by omega),
    if_neg (by rw [hrange]; simp; omega), hslen, if_neg Bool.false_ne_true, slUnpackPlain,
    if_neg (by omega), get_bytes (behind_word hb).left rfl, ok_bind, dallocStrndup_eq hs]
  simp only [pure, Except.pure, ok_bind, add_mul]
  rw [add_right_comm, add_assoc]

/-- The element of an empty string is refused. -/
theorem slUnpackString_nil (hb : BytesAt buf offset (stringBytes [])) :
    slUnpackString h false buf offset tocOffset .littleEndian = .error .fail := by
  have hread : slUnpackUint64Checked buf offset .littleEndian = .ok (slPackTag sqTypeData 1 8) :=
    slUnpackUint64Checked_tag hb
  rw [slUnpackString, hread]
  rfl

/-- The header of the identifiers and the identifiers behind it. -/
theorem slUnpackCNID_bytes (hne : ids ≠ []) (hsize : ids.length + 2 < 2 ^ 16)
    (hb : BytesAt buf offset (word (slPackTag unkn1.toNat ids.length context.toNat) ++
      ids.flatMap fun id => word id.toNat)) :
    slUnpackCNID buf offset ((ids.length + 2) * 8) .littleEndian =
      .ok (.cnids unkn1 context ids) := by
  have hpos : 0 < ids.length := length_pos_of_ne_nil hne
  have hrange : slUnpackRangeValid buf.length offset ((ids.length + 2) * 8 - 8) = true :=
    range_bytes hb (by rw [length_append, length_word, length_flatMap_toNat]; omega)
  have hunkn : UInt16.ofNat (tagType (slPackTag unkn1.toNat ids.length context.toNat)) = unkn1 := by
    rw [tagType_slPackTag, Nat.mod_eq_of_lt unkn1.toNat_lt, UInt16.ofNat_toNat]
  have hctx : UInt32.ofNat (tagVal (slPackTag unkn1.toNat ids.length context.toNat)) =
      context := by
    rw [tagVal_of_lt context.toNat_lt, UInt32.ofNat_toNat]
  have hids : (ids.map UInt64.toNat).map UInt64.ofNat = ids := by
    rw [map_map]
    exact map_id'' (fun id => UInt64.ofNat_toNat) ids
  rw [slUnpackCNID, if_neg (by omega), if_neg (by rw [hrange]; simp),
    slUnpackUint64Checked_tag hb, ok_bind]
  rw [tagSize_of_lt (by omega), if_neg (by omega), if_neg (by omega),
    slUnpackWords_flatMap ids (behind_word hb), ok_bind, hunkn, hctx, hids]
  rfl

theorem slUnpackCnids_bytes (hne : ids ≠ []) (hsize : ids.length + 2 < 2 ^ 16)
    (hb : BytesAt buf offset (cnidBytes unkn1 context ids)) :
    slUnpackCnids buf offset .littleEndian =
      .ok (.cnids unkn1 context ids, offset + 16 + ids.length * 8) := by
  have hrange : slUnpackRangeValid buf.length offset ((ids.length + 2) * 8) = true := by
    refine range_bytes hb ?_
    rw [length_cnidBytes, if_pos (length_pos_of_ne_nil hne)]
    omega
  rw [cnidBytes, if_pos (length_pos_of_ne_nil hne)] at hb
  rw [slUnpackCnids, slUnpackUint64Checked_tag hb, ok_bind]
  rw [tagSize_of_lt hsize, if_neg (by rw [hrange]; simp),
    slUnpackCNID_bytes hne hsize (behind_word hb), ok_bind]
  simp only [pure, Except.pure, add_mul]
  rw [add_right_comm, add_assoc]

theorem slUnpackFilemeta_empty (hb : BytesAt buf offset (word (slPackTag sqTypeData 1 8) ++ bs)) :
    slUnpackFilemeta sub buf offset .littleEndian = .ok (.filemeta [], offset + 8) := by
  have hrange : slUnpackRangeValid buf.length offset (1 % 2 ^ 16 * 8) = true :=
    range_bytes hb.left (length_word _).ge
  rw [slUnpackFilemeta, slUnpackUint64Checked_tag hb, ok_bind, tagSize_slPackTag]
  rw [if_neg (by rw [hrange]; simp)]
  rfl

theorem slUnpackFilemeta_doc {doc : List UInt8} (hsub : sub doc = .ok xs) (hpos : 0 < doc.length)
    (hmod : doc.length % 8 = 0) (hsize : doc.length / 8 + 1 < 2 ^ 16)
    (hb : BytesAt buf offset (word (slPackTag sqTypeData (doc.length / 8 + 1) 8) ++ doc)) :
    slUnpackFilemeta sub buf offset .littleEndian =
      .ok (.filemeta xs, offset + (8 + doc.length)) := by
  have hsz : (doc.length / 8 + 1) * 8 = 8 + doc.length := by omega
  have hrange : slUnpackRangeValid buf.length offset (8 + doc.length) = true :=
    range_bytes hb (by rw [length_append, length_word])
  rw [slUnpackFilemeta, slUnpackUint64Checked_tag hb, ok_bind, tagSize_of_lt hsize]
  rw [hsz, if_neg (by rw [hrange]; simp), if_neg (by omega), Nat.add_sub_cancel_left,
    get_bytes (behind_word hb) rfl, ok_bind, hsub]
  rfl

end compound

/-! ### Documents -/

theorem tocOffset64_header (hmod : n % 8 = 0) (hn : n < 2 ^ 32) (x : ℕ) :
    tocOffset64 (leNat (leBytes 4 x ++ leBytes 4 (n / 8 + 1))) = n := by
  have hval : tagVal (leNat (leBytes 4 x ++ leBytes 4 (n / 8 + 1))) = n / 8 + 1 := by
    rw [leNat_append, leNat_leBytes, leNat_leBytes, length_leBytes, tagVal]
    omega
  rw [tocOffset64]
  omega

theorem slUnpackUint64Checked_pair (x y : ℕ) (c : List UInt8) :
    slUnpackUint64Checked (leBytes 4 x ++ leBytes 4 y ++ c) 0 .littleEndian =
      .ok (leNat (leBytes 4 x ++ leBytes 4 y)) := by
  have hlen : (leBytes 4 x ++ leBytes 4 y).length = 8 := by
    rw [length_append, length_leBytes, length_leBytes]
  rw [slUnpackUint64Checked, if_pos]
  · rfl
  · rw [slUnpackRangeValid_iff, length_append]
    omega

section header
variable {data : List UInt8} {toc : List ℕ}

theorem get_docBytes (data : List UInt8) (toc : List ℕ) : get (docBytes data toc) 0 8 = .ok magic :=
  get_bytes ⟨[], _, by simp only [docBytes]; rfl, rfl⟩ rfl

theorem drop_docBytes (data : List UInt8) (toc : List ℕ) : (docBytes data toc).drop 8 =
    leBytes 4 (data.length / 8 + 1 + toc.length + 1) ++ leBytes 4 (data.length / 8 + 1) ++
      region data toc := by
  rfl

theorem slUnpackHeader_docBytes (hr : Readable data toc) (hmod : data.length % 8 = 0) :
    slUnpackHeader (docBytes data toc) = .ok (region data toc, tocOf data toc) := by
  have hsize := hr.size
  have htocs := hr.tocs
  have hlen := length_region data toc
  have h16 : (docBytes data toc).drop 16 = region data toc := by
    rw [show 16 = 8 + 8 from rfl, ← drop_drop, drop_docBytes]
    exact drop_left' (by rw [length_append, length_leBytes, length_leBytes])
  have hb : BytesAt (region data toc) data.length (tocBytes toc) :=
    ⟨data, [], by rw [append_nil, region], rfl⟩
  have hrange : slUnpackRangeValid (region data toc).length data.length 8 = true :=
    range_bytes hb.left (length_word _).ge
  unfold tocOffsetMax at hsize
  rw [slUnpackHeader, if_neg (by rw [length_docBytes, docSize]; omega), get_docBytes, ok_bind]
  dsimp only
  rw [if_neg (by decide), drop_docBytes, slUnpackUint64Checked_pair, ok_bind,
    tocOffset64_header hmod (by omega), h16]
  rw [if_neg (by rw [hrange]; unfold tocOffsetMax; simp; omega), slUnpackUint64Checked_tag hb,
    ok_bind, tagType_slPackTag, tagSize_of_lt (by omega), if_neg (by decide), if_neg (by omega),
    if_neg]
  · rfl
  · unfold uintMax
    omega

/-- The header of a document with too much data is refused. -/
theorem slUnpackHeader_large (hmod : data.length % 8 = 0) (hlarge : tocOffsetMax < data.length)
    (hlt : data.length < 2 ^ 32) : slUnpackHeader (docBytes data toc) = .error .fail := by
  rw [slUnpackHeader, if_neg (by rw [length_docBytes, docSize]; omega), get_docBytes, ok_bind]
  dsimp only
  rw [if_neg (by decide), drop_docBytes, slUnpackUint64Checked_pair, ok_bind,
    tocOffset64_header hmod hlt, if_pos (.inl hlarge)]

end header

/-! ### Trees -/

mutual
/-- The values that survive the round trip. -/
def Node.Packable : Node → Prop
  | .array xs => PackableAll xs
  | .dict xs => PackableAll xs
  | .filemeta xs => (xs = [] ∨ ∃ ys, xs = [.array ys] ∧ ys ≠ []) ∧ PackableAll xs
  | .string block => ∃ s, block = s ++ [0] ∧ s ≠ [] ∧ 0 ∉ s
  | .cnids _ _ ids => ids ≠ []
  | .uint64 _ => True
  | .bool _ => True
  | .double _ => True
  | .nil => True
  | .uuid _ => True
  | .date _ => False
  | .other => False

/-- All values of a list survive the round trip. -/
def PackableAll : List Node → Prop
  | [] => True
  | x :: xs => x.Packable ∧ PackableAll xs
end

mutual
/-- How deep the unpacker nests its calls for a value. -/
def Node.nesting : Node → ℕ
  | .array xs => 2 + nestingAll xs
  | .dict xs => 2 + nestingAll xs
  | .filemeta xs => if xs.isEmpty then 1 else 2 + nestingAll xs
  | .string _ => 1
  | .cnids _ _ _ => 1
  | .uint64 _ => 0
  | .bool _ => 0
  | .double _ => 0
  | .nil => 0
  | .uuid _ => 0
  | .date _ => 0
  | .other => 0

/-- How deep the unpacker nests its calls for the values of a list. -/
def nestingAll : List Node → ℕ
  | [] => 0
  | x :: xs => max x.nesting (nestingAll xs)
end

/-- A layout lies in a document behind the data `a` and the entries `t₀`. -/
structure Placed (items : List Item) (data : List UInt8) (toc : List ℕ) (a : List UInt8)
    (t₀ : List ℕ) : Prop where
  data : ∃ c, data = a ++ (dataAll t₀.length items ++ c)
  toc : ∃ t₁, toc = t₀ ++ (tocAll a.length items ++ t₁)

section placed
variable {is js : List Item} {data a : List UInt8} {toc t₀ : List ℕ}

theorem Placed.bytes (hp : Placed is data toc a t₀) :
    BytesAt data a.length (dataAll t₀.length is) := by
  obtain ⟨c, hc⟩ := hp.data
  exact ⟨a, c, hc, rfl⟩

theorem Placed.length_le (hp : Placed is data toc a t₀) : a.length + sizeAll is ≤ data.length := by
  have hle := hp.bytes.le
  rwa [length_dataAll] at hle

theorem Placed.left (hp : Placed (is ++ js) data toc a t₀) : Placed is data toc a t₀ := by
  obtain ⟨⟨c, hc⟩, t₁, ht⟩ := hp
  rw [dataAll_append, append_assoc] at hc
  rw [tocAll_append, append_assoc] at ht
  exact ⟨⟨_, hc⟩, _, ht⟩

theorem Placed.right (hp : Placed (is ++ js) data toc a t₀) :
    Placed js data toc (a ++ dataAll t₀.length is) (t₀ ++ tocAll a.length is) := by
  obtain ⟨⟨c, hc⟩, t₁, ht⟩ := hp
  rw [dataAll_append, append_assoc, ← append_assoc a] at hc
  rw [tocAll_append, append_assoc, ← append_assoc t₀] at ht
  refine ⟨⟨c, ?_⟩, t₁, ?_⟩
  · rw [length_append, length_tocAll]
    exact hc
  · rw [length_append, length_dataAll]
    exact ht

end placed

theorem laidAll_append {is js : List Item} (h : LaidAll m o idx (is ++ js)) :
    LaidAll m o idx is ∧ LaidAll m (o + sizeAll is) (idx + tocsAll is) js := by
  induction is generalizing o idx with
  | nil => exact ⟨trivial, h⟩
  | cons i is ih =>
    obtain ⟨h₁, h₂⟩ := ih h.2
    rw [sizeAll, tocsAll_cons, ← add_assoc, ← add_assoc]
    exact ⟨⟨h.1, h₁⟩, h₂⟩

theorem Node.eight_le_size {h : Host} {n : Node} (hn : n.Packable)
    (hl : LaidAll m o idx (n.items h)) : 8 ≤ sizeAll (n.items h) := by
  cases n with
  | string block =>
    rw [items] at hl ⊢
    cases hs : stringOf block with
    | none => simp [hs, LaidAll, Item.Laid] at hl
    | some s =>
      rw [sizeAll, size]
      omega
  | date | other => exact hn.elim
  | _ =>
    simp only [items, sizeAll, size, length_append, length_word]
    omega

theorem length_le_sizeAll {h : Host} (hxs : PackableAll xs)
    (hl : LaidAll m o idx (flatten h xs)) : xs.length * 8 ≤ sizeAll (flatten h xs) := by
  induction xs generalizing o idx with
  | nil => exact zero_le
  | cons x xs ih =>
    obtain ⟨h₁, h₂⟩ := laidAll_append hl
    have hx := Node.eight_le_size hxs.1 h₁
    have hrest := ih hxs.2 h₂
    rw [flatten, sizeAll_append, length_cons]
    omega

theorem framesFrom_succ {depth : ℕ} (hd : depth < subqSafetyLim) :
    framesFrom depth = framesFrom (depth + 1) + 2 := by
  unfold framesFrom
  omega

section compound
variable {h : Host} {data a bs : List UInt8} {toc t₀ : List ℕ} {frames depth count : ℕ}
  {is : List Item} {c : Except UnpackErr (Node × ℕ)}

/-- A round on a compound element that is placed in the document ends as the call for its bytes
does. -/
theorem round_entry (hr : Readable data toc) (hp : Placed (.entry type val bs :: is) data toc a t₀)
    (hf : framesFrom depth ≤ frames)
    (hcpx : ∀ k, framesFrom depth ≤ k + 1 → BytesAt (region data toc) (a.length + 8) bs →
      slUnpackCpx h (k + 1) (region data toc) (tocOf data toc) depth (a.length + 8)
        (type % 2 ^ 16) (val % 2 ^ 32) = c) :
    round h frames depth data toc a.length (count + 1) =
      c >>= fun r => .ok ([r.1], r.2, count) := by
  obtain ⟨k, rfl⟩ : ∃ k, frames = k + 1 := ⟨frames - 1, by unfold framesFrom at hf; omega⟩
  have hb := hp.bytes
  obtain ⟨_, t₁, ht⟩ := hp
  subst ht
  refine round_complex hr hb.left ?_
  rw [tagType_slPackTag, tagVal_slPackTag]
  exact hcpx k hf (behind_word (bytesAt_region hb.left _))

end compound

/-- A round reads the value back wherever its layout is placed. -/
def Reads (h : Host) (n : Node) : Prop :=
  ∀ (data a : List UInt8) (toc t₀ : List ℕ) (frames depth count m o idx : ℕ),
    Readable data toc → Placed (n.items h) data toc a t₀ → LaidAll m o idx (n.items h) →
    depth + n.nesting < subqSafetyLim → framesFrom (depth + 1) ≤ frames →
    round h frames (depth + 1) data toc a.length (count + 1) =
      .ok ([n], a.length + sizeAll (n.items h), count)

/-- The rounds of the loop read the values back wherever their layout is placed. -/
def ReadsAll (h : Host) (xs : List Node) : Prop :=
  ∀ (data a : List UInt8) (toc t₀ : List ℕ) (frames depth rounds m o idx : ℕ),
    Readable data toc → Placed (flatten h xs) data toc a t₀ → LaidAll m o idx (flatten h xs) →
    depth + nestingAll xs < subqSafetyLim → framesFrom (depth + 1) ≤ frames →
    xs.length < rounds →
    slUnpackRounds (round h frames (depth + 1) data toc) (data.length + 8) rounds a.length
      xs.length = .ok (xs, a.length + sizeAll (flatten h xs))

section reads
variable {h : Host}

theorem readsAll_nil : ReadsAll h [] := by
  intro data a toc t₀ frames depth rounds m o idx _ _ _ _ _ hrounds
  cases rounds with
  | zero => omega
  | succ =>
    rfl

theorem readsAll_cons {x : Node} (hx : Reads h x) (hxs : ReadsAll h xs) : ReadsAll h (x :: xs) := by
  intro data a toc t₀ frames depth rounds m o idx hr hp hl hd hf hrounds
  rw [nestingAll] at hd
  obtain ⟨hl₁, hl₂⟩ := laidAll_append hl
  have hle := hp.length_le
  cases rounds with
  | zero => omega
  | succ rounds =>
    have hhead := hx data a toc t₀ frames depth xs.length m o idx hr hp.left hl₁ (by omega) hf
    have htail := hxs data _ toc _ frames depth rounds m _ _ hr hp.right hl₂ (by omega) hf
      (by rw [length_cons] at hrounds; omega)
    rw [length_append, length_dataAll] at htail
    rw [length_cons, slUnpackRounds, if_pos (by omega), hhead, ok_bind]
    dsimp only
    rw [htail, flatten, sizeAll_append, ← add_assoc]
    rfl

variable {a data : List UInt8} {toc t₀ : List ℕ}

/-- The loop reads placed values back. -/
theorem ReadsAll.loop (hall : ReadsAll h xs) (hxs : PackableAll xs) (frames depth : ℕ)
    (hr : Readable data toc) (hp : Placed (flatten h xs) data toc a t₀)
    (hl : LaidAll m o idx (flatten h xs)) (hd : depth + nestingAll xs < subqSafetyLim)
    (hf : framesFrom depth ≤ frames) :
    slUnpackLoop h frames (region data toc) (tocOf data toc) depth a.length xs.length =
      .ok (xs, a.length + sizeAll (flatten h xs)) := by
  have hle := hp.length_le
  have hlen := length_le_sizeAll hxs hl
  have hregion := length_region data toc
  have hframes := framesFrom_succ (show depth < subqSafetyLim by omega)
  cases frames with
  | zero => omega
  | succ frames =>
    rw [slUnpackLoop, if_neg (by omega)]
    exact hall data a toc t₀ frames depth _ m o idx hr hp hl hd (by omega) (by omega)

/-- A compound element that counts its members is read back with them. -/
theorem reads_members (hall : ReadsAll h xs) (hxs : PackableAll xs) {node : List Node → Node}
    (htype : (type = sqCpxTypeArray ∧ node = .array) ∨ (type = sqCpxTypeDict ∧ node = .dict)) :
    Reads h (node xs) := by
  have hitems : (node xs).items h = .entry type xs.length [] :: flatten h xs := by
    rcases htype with ⟨rfl, rfl⟩ | ⟨rfl, rfl⟩ <;> rw [items]
  have hnesting : (node xs).nesting = 2 + nestingAll xs := by
    rcases htype with ⟨rfl, rfl⟩ | ⟨rfl, rfl⟩ <;> rw [Node.nesting]
  intro data a toc t₀ frames depth count m o idx hr hp hl hd hf
  rw [hitems] at hp hl ⊢
  have hp' : Placed ([.entry type xs.length []] ++ flatten h xs) data toc a t₀ := hp
  have hle := hp.length_le
  have hsize := hr.size
  have hlen := length_le_sizeAll hxs hl.2
  have hframes := framesFrom_succ (show depth + 1 < subqSafetyLim by omega)
  unfold tocOffsetMax at hsize
  rw [sizeAll] at hle ⊢
  refine round_entry (c := .ok (node xs, a.length + (8 + sizeAll (flatten h xs)))) hr hp hf ?_
  intro k hk _
  have hloop := hall.loop hxs k (depth + 1 + 1) hr hp'.right hl.2 (by omega) (by omega)
  rw [length_append, length_dataAll, show sizeAll [.entry type xs.length []] = 8 from rfl,
    add_assoc a.length 8] at hloop
  rw [Nat.mod_eq_of_lt (show xs.length < 2 ^ 32 by omega), slUnpackCpx, if_neg (by omega)]
  rcases htype with ⟨rfl, rfl⟩ | ⟨rfl, rfl⟩
  · exact (congrArg (· >>= _) hloop).trans rfl
  · exact (congrArg (· >>= _) hloop).trans rfl

theorem reads_string (hne : s ≠ []) (hs : 0 ∉ s) : Reads h (.string (s ++ [0])) := by
  intro data a toc t₀ frames depth count m o idx hr hp hl hd hf
  rw [items] at hp hl ⊢
  rw [stringOf_terminated hs] at hp hl ⊢
  by_cases hlong : intMax < s.length
  · simp [hlong, LaidAll, Item.Laid] at hl
  rw [if_neg hlong] at hp ⊢
  have hle := hp.length_le
  have hsize := hr.size
  have hoct := octets_spec s.length
  rw [Node.nesting] at hd
  unfold tocOffsetMax at hsize
  simp only [sizeAll, size, length_stringBytes, ← add_assoc] at hle ⊢
  refine round_entry (c := .ok (.string (s ++ [0]), _)) hr hp hf ?_
  intro k _ hb
  rw [slUnpackCpx, if_neg (by omega)]
  exact slUnpackString_bytes hne hs (by omega) hb (show _ ≤ data.length + 8 by omega)

theorem reads_cnids (hne : ids ≠ []) : Reads h (.cnids unkn1 context ids) := by
  intro data a toc t₀ frames depth count m o idx hr hp hl hd hf
  rw [items] at hp ⊢
  have hle := hp.length_le
  have hsize := hr.size
  rw [Node.nesting] at hd
  unfold tocOffsetMax at hsize
  simp only [sizeAll, size, length_cnidBytes, if_pos (length_pos_of_ne_nil hne),
    ← add_assoc] at hle ⊢
  refine round_entry (c := .ok (.cnids unkn1 context ids, _)) hr hp hf ?_
  intro k _ hb
  rw [slUnpackCpx, if_neg (by omega), if_neg (by decide)]
  exact slUnpackCnids_bytes hne (by omega) hb

/-- A nested document is placed as the compound element it is. -/
theorem Placed.doc (hn : bodySize (docSize (sizeAll items) (tocsAll items)) = n)
    (hp : Placed [.doc items] data toc a t₀) :
    Placed [.entry sqCpxTypeFilemeta (n / 8) (word (slPackTag sqTypeData (n / 8 + 1) 8) ++
      (docBytes (dataAll 0 items) (tocAll 0 items)).take n)] data toc a t₀ := by
  subst hn
  obtain ⟨hdata, htoc⟩ := hp
  exact ⟨by simpa only [dataAll, Item.data] using hdata, by
    simpa only [tocAll, Item.toc] using htoc⟩

theorem reads_filemeta_nil : Reads h (.filemeta []) := by
  intro data a toc t₀ frames depth count m o idx hr hp hl hd hf
  rw [Node.nesting, if_pos (by rfl)] at hd
  refine (round_entry (c := .ok (.filemeta [], a.length + 8 + 8)) hr (Placed.doc (n := 0) rfl hp) hf
    ?_).trans rfl
  intro k _ hb
  rw [slUnpackCpx, if_neg (by omega)]
  exact slUnpackFilemeta_empty hb

theorem placed_layout (is : List Item) : Placed is (dataAll 0 is) (tocAll 0 is) [] [] :=
  ⟨⟨[], (append_nil _).symm⟩, [], (append_nil _).symm⟩

theorem dataAll_mod (h : Host) (xs : List Node) : (dataAll 0 (flatten h xs)).length % 8 = 0 := by
  rw [length_dataAll]
  exact sizeAll_flatten_mod h xs

theorem readable_layout (hsize : sizeAll items ≤ tocOffsetMax) :
    Readable (dataAll 0 items) (tocAll 0 items) where
  size := by rwa [length_dataAll]
  tocs := by
    rw [length_dataAll, length_tocAll]
    exact tocsAll_le_sizeAll items
  lt _ he := tocAll_lt he

/-- The document of a single value unpacks to the value. -/
theorem ReadsAll.document (hall : ReadsAll h xs) (hxs : PackableAll xs) (hone : xs.length = 1)
    (hsize : sizeAll (flatten h xs) ≤ tocOffsetMax) (hl : LaidAll m o idx (flatten h xs))
    {depth frames : ℕ} (hd : depth + nestingAll xs < subqSafetyLim)
    (hf : framesFrom depth + 1 ≤ frames) : slUnpackR h frames (document h xs) depth = .ok xs := by
  have hr := readable_layout hsize
  cases frames with
  | zero => omega
  | succ frames =>
    have hloop := hall.loop hxs frames depth hr (placed_layout _) hl hd (by omega)
    rw [hone] at hloop
    rw [slUnpackR, Spotlight.document, slUnpackHeader_docBytes hr (dataAll_mod h xs), ok_bind]
    exact (congrArg (· >>= _) hloop).trans rfl

/-- A non-empty array is too large for its document to be taken for an empty one. -/
theorem array_size (hys : ys ≠ []) (hpack : PackableAll [.array ys])
    (hl : LaidAll m o idx (flatten h [.array ys])) :
    16 ≤ sizeAll (flatten h [.array ys]) ∧ 1 ≤ tocsAll (flatten h [.array ys]) := by
  have hpos : 0 < ys.length := length_pos_of_ne_nil hys
  have hflat : flatten h [.array ys] = .entry sqCpxTypeArray ys.length [] :: flatten h ys := by
    rw [flatten, flatten, items, append_nil]
  rw [hflat] at hl
  have hlen := length_le_sizeAll hpack.1 hl.2
  rw [hflat, sizeAll, size, tocsAll_cons, tocs]
  omega

theorem reads_filemeta (hys : ys ≠ []) (hall : ReadsAll h [.array ys])
    (hpack : PackableAll [.array ys]) : Reads h (.filemeta [.array ys]) := by
  intro data a toc t₀ frames depth count m o idx hr hp hl hd hf
  rw [items] at hp hl ⊢
  obtain ⟨⟨_, _, hnested, _⟩, _⟩ := hl
  have hbig := array_size hys hpack hnested
  have hbody : bodySize (docSize (sizeAll (flatten h [.array ys]))
      (tocsAll (flatten h [.array ys]))) = docSize (sizeAll (flatten h [.array ys]))
      (tocsAll (flatten h [.array ys])) := if_pos (by unfold docSize; omega)
  have hlen : (document h [.array ys]).length = docSize (sizeAll (flatten h [.array ys]))
      (tocsAll (flatten h [.array ys])) := by
    rw [document, length_docBytes, length_dataAll, length_tocAll]
  have hle := hp.length_le
  have hsize := hr.size
  have hp' := hp.doc (hbody.trans hlen.symm)
  rw [sizeAll, sizeAll, size, hbody, ← hlen] at hle ⊢
  rw [Node.nesting, if_neg (by simp)] at hd
  have hpos : 40 < (document h [.array ys]).length := by
    rw [hlen]
    unfold docSize
    omega
  have hmod : (document h [.array ys]).length % 8 = 0 := by
    rw [hlen]
    exact docSize_mod (sizeAll_flatten_mod h _) _
  have hroot : sizeAll (flatten h [.array ys]) ≤ tocOffsetMax := by
    have hdoc : sizeAll (flatten h [.array ys]) ≤ (document h [.array ys]).length := by
      rw [hlen]
      unfold docSize
      omega
    omega
  have hframes := framesFrom_succ (show depth + 1 < subqSafetyLim by omega)
  unfold tocOffsetMax at hsize
  rw [← document, take_length] at hp'
  rw [show a.length + (16 + (document h [.array ys]).length + 0) =
    a.length + 8 + (8 + (document h [.array ys]).length) by omega]
  refine round_entry (c := .ok (.filemeta [.array ys], _)) hr hp' hf ?_
  intro k _ hb
  have hdoc : slUnpackR h k (document h [.array ys]) (depth + 1 + 1) = .ok [.array ys] :=
    hall.document hpack rfl hroot hnested (by omega) (by omega)
  rw [slUnpackCpx, if_neg (by omega)]
  exact slUnpackFilemeta_doc hdoc (by omega) hmod (by omega) hb

/-- An element without an entry is read back if a round reads its bytes. -/
theorem reads_raw {n : Node} {k : ℕ} (hitems : n.items h = [.raw bs]) (hk : bs.length = k)
    (hround : ∀ {data toc offset frames depth count}, BytesAt data offset bs →
      round h frames depth data toc offset (count + 1) = .ok ([n], offset + k, count)) :
    Reads h n := by
  intro data a toc t₀ frames depth count m o idx hr hp hl hd hf
  rw [hitems] at hp ⊢
  have hb := hp.bytes
  rw [dataAll, dataAll, append_nil] at hb
  rw [sizeAll, size, hk]
  exact hround hb

end reads

mutual
theorem reads_node (h : Host) : (n : Node) → n.Packable → Reads h n
  | .array xs, hn => by
      rw [Node.Packable] at hn
      exact reads_members (reads_nodes h xs hn) hn (.inl ⟨rfl, rfl⟩)
  | .dict xs, hn => by
      exact reads_members (reads_nodes h xs hn) hn (.inr ⟨rfl, rfl⟩)
  | .filemeta xs, hn => by
      have hall := reads_nodes h xs hn.2
      rcases hn with ⟨rfl | ⟨ys, rfl, hys⟩, hpack⟩
      · exact reads_filemeta_nil
      · exact reads_filemeta hys hall hpack
  | .string block, hn => by
      obtain ⟨s, rfl, hne, hs⟩ := hn
      exact reads_string hne hs
  | .cnids unkn1 context ids, hn => by
      exact reads_cnids hn
  | .uint64 v, _ => by
      apply reads_raw (by rw [items]) rfl
      exact round_word (.inl ⟨rfl, rfl⟩)
  | .double v, _ => by
      apply reads_raw (by rw [items]) rfl
      exact round_word (.inr ⟨rfl, rfl⟩)
  | .bool b, _ => by
      apply reads_raw (by rw [items, ← append_nil (word _)]) rfl
      exact round_bool
  | .nil, _ => by
      apply reads_raw (by rw [items, ← append_nil (word _)]) rfl
      exact round_nil
  | .uuid u, _ => by
      apply reads_raw (by rw [items]) (show _ = 24 by simp)
      exact round_uuid
  | .date _, hn => hn.elim
  | .other, hn => hn.elim

/-- Every value of the domain is read back. -/
theorem reads_nodes (h : Host) : (xs : List Node) → PackableAll xs → ReadsAll h xs
  | [], _ => readsAll_nil
  | x :: xs, hn => by
      rw [PackableAll] at hn
      exact readsAll_cons (reads_node h x hn.1) (reads_nodes h xs hn.2)
end

/-- The document of a tree with a single root unpacks to the tree. -/
theorem slUnpackLen_document {h : Host} {root : Node} (hroot : root.Packable)
    (hd : root.nesting < subqSafetyLim) (hsize : (dataAll 0 (flatten h [root])).length ≤ 65000)
    (hl : LaidAll m o idx (flatten h [root])) :
    slUnpackLen h (document h [root]) = .ok [root] := by
  have hpack : PackableAll [root] := by
    exact ⟨hroot, trivial⟩
  rw [length_dataAll] at hsize
  refine (reads_nodes h [root] hpack).document hpack rfl hsize hl ?_ (by decide)
  rw [nestingAll, nestingAll, Nat.max_zero, zero_add]
  exact hd

/-- The round trip: if the packer succeeds on a tree with a single root, the unpacker makes the
same tree of its bytes. -/
theorem slUnpackLen_slPack {h : Host} {root : Node} (hroot : root.Packable)
    (hd : root.nesting < subqSafetyLim) (hsize : (dataAll 0 (flatten h [root])).length ≤ 65000)
    {buf buf' : List UInt8} {len : ℕ} (hbuf : buf.length = maxSlqDat)
    (hok : slPack h [root] buf = .ok (buf', len)) : slUnpackLen h (buf'.take len) = .ok [root] := by
  have hm : maxSlqDat ≤ buf.length := le_of_eq hbuf.symm
  obtain ⟨_, hl, _⟩ := (slPackLen_decided h [root] hm).ok_iff.mp ⟨_, hok⟩
  rw [(slPackLen_layout hm hok).take]
  exact slUnpackLen_document hroot hd hsize hl

/-- A dictionary with a string, a CNID set and file metadata. -/
def sample : Node :=
  .dict [.string [0x61, 0], .cnids 7 3 [42],
    .filemeta [.array [.uint64 5, .bool true, .nil, .double 1]]]

theorem slUnpackLen_slPack_sample : ∃ buf' len,
    slPack plainHost [sample] (replicate maxSlqDat 0) = .ok (buf', len) ∧
      slUnpackLen plainHost (buf'.take len) = .ok [sample] := by
  have hbuf : (replicate maxSlqDat (0 : UInt8)).length = maxSlqDat := length_replicate
  have hroot : sample.Packable := by
    simp only [sample, Node.Packable, PackableAll]
    exact ⟨⟨[0x61], rfl, by decide, by decide⟩, by decide,
      ⟨.inr ⟨_, rfl, by simp⟩, by simp⟩, trivial⟩
  have hflat : flatten plainHost [sample] = [.entry sqCpxTypeDict 3 [],
      .entry sqCpxTypeString 1 (stringBytes [0x61]),
      .entry sqCpxTypeCnids 0 (cnidBytes 7 3 [42]),
      .doc [.entry sqCpxTypeArray 4 [], .raw (word (slPackTag sqTypeInt64 2 1) ++ word 5),
        .raw (word (slPackTag sqTypeBool 1 1)), .raw (word (slPackTag sqTypeNull 1 1)),
        .raw (word (slPackTag sqTypeFloat 2 1) ++ word 1)]] := by
    have hs : stringOf [0x61, 0] = some [0x61] := by decide
    simp [sample, flatten, items, hs, usedInLastOctet]
  have hlaid : LaidAll (maxSlqDat - 16) 0 0 (flatten plainHost [sample]) ∧
      docSize (sizeAll (flatten plainHost [sample])) (tocsAll (flatten plainHost [sample])) <
        maxSlqDat ∧ sizeAll (flatten plainHost [sample]) ≤ 65000 := by
    rw [hflat]
    simp [LaidAll, Item.Laid, sizeAll, size, tocs, docSize, bodySize, tocRoom, maxSlqDat,
      length_stringBytes, length_cnidBytes, octets]
  obtain ⟨⟨buf', len⟩, hok⟩ := (slPackLen_decided plainHost [sample]
    (le_of_eq hbuf.symm)).ok_iff.mpr ⟨by decide, hlaid.1, hlaid.2.1⟩
  exact ⟨buf', len, hok, slUnpackLen_slPack hroot (by decide)
    (by rw [length_dataAll]; exact hlaid.2.2) hbuf hok⟩

/-! ### A lone string -/

/-- The document of an empty string is refused. -/
theorem slUnpackLen_string_nil (h : Host) :
    slUnpackLen h (document h [.string [0]]) = .error .fail := by
  have hflat : flatten h [.string [0]] = [.entry sqCpxTypeString 8 (stringBytes [])] := by
    rfl
  have hr : Readable _ _ := readable_layout (show sizeAll (flatten h [.string [0]]) ≤ _ by
    rw [hflat]; decide)
  have hp := placed_layout (flatten h [.string [0]])
  have hround : round h 40 1 (dataAll 0 (flatten h [.string [0]]))
      (tocAll 0 (flatten h [.string [0]])) 0 1 = .error .fail := by
    rw [hflat] at hp hr ⊢
    refine round_entry (c := .error .fail) hr hp (by decide) ?_
    intro k _ hb
    rw [slUnpackCpx]
    exact slUnpackString_nil hb
  rw [slUnpackLen, show maxFrames = 40 + 1 + 1 from rfl, slUnpackR, document,
    slUnpackHeader_docBytes hr (dataAll_mod h _), ok_bind]
  dsimp only
  rw [slUnpackLoop]
  exact congrArg (· >>= _) (congrArg (· >>= _) hround)

theorem flatten_string {h : Host} (hs : 0 ∉ s) (hmax : s.length ≤ intMax) :
    flatten h [.string (s ++ [0])] =
      [.entry sqCpxTypeString (usedInLastOctet s.length) (stringBytes s)] := by
  rw [flatten, items, stringOf_terminated hs, if_neg hmax.not_gt]
  rfl

/-- A string is packed if it fits. -/
theorem slPack_string (h : Host) (hs : 0 ∉ s) (hfit : octets s.length * 8 + 48 < maxSlqDat)
    (hbuf : buf.length = maxSlqDat) :
    ∃ buf' len, slPack h [.string (s ++ [0])] buf = .ok (buf', len) := by
  have hoct := octets_spec s.length
  have hflat := flatten_string (h := h) hs (by unfold maxSlqDat at hfit; unfold intMax; omega)
  obtain ⟨⟨buf', len⟩, hok⟩ := (slPackLen_decided h [.string (s ++ [0])]
    (le_of_eq hbuf.symm)).ok_iff.mpr (by
      rw [hflat]
      simp only [LaidAll, Item.Laid, sizeAll, size, tocsAll_cons, tocsAll_nil, tocs,
        length_stringBytes, docSize, tocRoom, and_true]
      omega)
  exact ⟨buf', len, hok⟩

/-- A string that was packed alone is read back exactly if it is not empty and its data ends by
the largest offset the header may give the table; a string that is not empty is read back in
every tree of the domain. -/
theorem slUnpackLen_string_iff {h : Host} {s : List UInt8} (hs : 0 ∉ s) :
    (∀ buf buf' len, buf.length = maxSlqDat →
      slPack h [.string (s ++ [0])] buf = .ok (buf', len) →
      (slUnpackLen h (buf'.take len) = .ok [.string (s ++ [0])] ↔
        s ≠ [] ∧ 16 + octets s.length * 8 ≤ 65000)) ∧
    (s ≠ [] → ∀ tree : Node → Node, (∀ n, n.Packable → (tree n).Packable) →
      (tree (.string (s ++ [0]))).nesting < subqSafetyLim →
      (dataAll 0 (flatten h [tree (.string (s ++ [0]))])).length ≤ 65000 →
      ∀ buf buf' len, buf.length = maxSlqDat →
        slPack h [tree (.string (s ++ [0]))] buf = .ok (buf', len) →
        slUnpackLen h (buf'.take len) = .ok [tree (.string (s ++ [0]))]) := by
  have hpackable : s ≠ [] → (Node.string (s ++ [0])).Packable := by
    intro hne
    exact ⟨s, rfl, hne, hs⟩
  constructor
  · intro buf buf' len hbuf hok
    have hm : maxSlqDat ≤ buf.length := le_of_eq hbuf.symm
    obtain ⟨_, hl, hdoc⟩ := (slPackLen_decided h _ hm).ok_iff.mp ⟨_, hok⟩
    have hmax : s.length ≤ intMax := by
      by_contra hlong
      simp [flatten, items, stringOf_terminated hs, Nat.not_le.mp hlong, LaidAll,
        Item.Laid] at hl
    have hflat := flatten_string (h := h) hs hmax
    have hsize : sizeAll (flatten h [.string (s ++ [0])]) = 16 + octets s.length * 8 := by
      rw [hflat]
      simp only [sizeAll, size, length_stringBytes]
      omega
    have hlt : 16 + octets s.length * 8 < maxSlqDat := by
      rw [docSize] at hdoc
      omega
    rw [← hsize, ← length_dataAll _ 0] at hlt ⊢
    rw [(slPackLen_layout hm hok).take]
    constructor
    · intro hdec
      constructor
      · rintro rfl
        rw [nil_append, slUnpackLen_string_nil] at hdec
        cases hdec
      · by_contra hlarge
        rw [slUnpackLen, show maxFrames = 41 + 1 from rfl, slUnpackR, document,
          slUnpackHeader_large (dataAll_mod h _) (Nat.not_le.mp hlarge)
            (lt_trans hlt (by decide))] at hdec
        cases hdec
    · rintro ⟨hne, hle⟩
      exact slUnpackLen_document (hpackable hne) (by rw [Node.nesting]; decide) hle hl
  · intro hne tree htree hd hsize buf buf' len hbuf hok
    have hm : maxSlqDat ≤ buf.length := le_of_eq hbuf.symm
    obtain ⟨_, hl, _⟩ := (slPackLen_decided h _ hm).ok_iff.mp ⟨_, hok⟩
    rw [(slPackLen_layout hm hok).take]
    exact slUnpackLen_document (htree _ (hpackable hne)) hd hsize hl

theorem slUnpackLen_string_iff_letter : (0 : UInt8) ∉ [0x61] ∧ ∃ buf' len,
    slPack plainHost [.string [0x61, 0]] (replicate maxSlqDat 0) = .ok (buf', len) ∧
      slUnpackLen plainHost (buf'.take len) = .ok [.string [0x61, 0]] := by
  have hs : (0 : UInt8) ∉ [0x61] := by decide
  obtain ⟨buf', len, hok⟩ := slPack_string plainHost hs (by decide)
    (length_replicate (n := maxSlqDat) (a := 0))
  exact ⟨hs, buf', len, hok, ((slUnpackLen_string_iff hs).1 _ buf' len length_replicate
    hok).mpr (by decide)⟩

/-- The empty string is packed and not read back. -/
theorem slUnpackLen_string_empty : ∃ buf' len,
    slPack plainHost [.string [0]] (replicate maxSlqDat 0) = .ok (buf', len) ∧
      slUnpackLen plainHost (buf'.take len) = .error .fail := by
  have hbuf : (replicate maxSlqDat (0 : UInt8)).length = maxSlqDat := length_replicate
  obtain ⟨buf', len, hok⟩ := slPack_string (s := []) plainHost not_mem_nil (by decide) hbuf
  have hdoc := slPackLen_layout (le_of_eq hbuf.symm) hok
  exact ⟨buf', len, hok, hdoc.take ▸ slUnpackLen_string_nil plainHost⟩

end Netatalk.Spotlight
