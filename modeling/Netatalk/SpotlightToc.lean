import Netatalk.SpotlightLayout

/-! # The table of contents of a packed document

`sl_pack_len` hands its `MAX_SLQ_TOC` bytes for the table of contents on from the ninth byte, and
every entry is checked against `MAX_SLQ_TOC` from there.  The table has room for 1023 entries,
and the check lets a 1024th through.  Whether packing a tree leaves the table is a question about
sizes alone: `slPackLen_wild_iff` says which trees do.  The output buffer is never left
(`slPackLen_confined`). -/

namespace Netatalk.Spotlight

open List Netatalk.Bytes Netatalk.Fallible

/-- The entries the table has room for. -/
def tocRoom : ℕ := 1023

mutual
/-- An item is packed: it ends before `m`, and the table has room for its entry. -/
def Item.Laid (m o idx : ℕ) : Item → Prop
  | .raw bs => o + bs.length ≤ m
  | .entry _ _ bs => idx < tocRoom ∧ o + 8 + bs.length ≤ m
  | .doc items => idx < tocRoom ∧ o + 32 < m ∧ LaidAll (m - (o + 32)) 0 0 items ∧
      docSize (sizeAll items) (tocsAll items) + (o + 16) < m
  | .bad => False

/-- All items of a layout are packed, the first at offset `o` behind `idx` entries. -/
def LaidAll (m o idx : ℕ) : List Item → Prop
  | [] => True
  | i :: is => i.Laid m o idx ∧ LaidAll m (o + i.size) (idx + i.tocs) is
end

mutual
/-- An item leaves the table: it needs an entry where the room is used up, or it is a nested
document that leaves its own table. -/
def Item.Overruns (m o idx : ℕ) : Item → Prop
  | .raw _ => False
  | .entry _ _ _ => idx = tocRoom
  | .doc items => o + 32 < m ∧ (OverrunsAll (m - (o + 32)) 0 0 items ∨
      LaidAll (m - (o + 32)) 0 0 items ∧
        docSize (sizeAll items) (tocsAll items) + (o + 16) < m ∧ idx = tocRoom)
  | .bad => False

/-- An item of a layout leaves the table, and all items before it are packed. -/
def OverrunsAll (m o idx : ℕ) : List Item → Prop
  | [] => False
  | i :: is => i.Overruns m o idx ∨
      i.Laid m o idx ∧ OverrunsAll m (o + i.size) (idx + i.tocs) is
end

/-- A call succeeds, leaves the table of contents or fails. -/
inductive Decided {α : Type} (laid overruns : Prop) (r : Except Err α) : Prop
  | packed (a : α) : laid → ¬ overruns → r = .ok a → Decided laid overruns r
  | wild : ¬ laid → overruns → r = .error (.wild .toc) → Decided laid overruns r
  | refused : ¬ laid → ¬ overruns → r = .error .fail → Decided laid overruns r

variable {buf : List UInt8} {idx m : ℕ} {items : List Item} {l o : Prop} {p : Pack} {α : Type}

section
variable {r : Except Err α} (h : Decided l o r)
include h

theorem Decided.wild_iff : r = .error (.wild .toc) ↔ o := by
  cases h with
  | packed _ hl ho hr | wild hl ho hr | refused hl ho hr => simp [hr, ho]

theorem Decided.ok_iff : (∃ a, r = .ok a) ↔ l := by
  cases h with
  | packed _ hl ho hr | wild hl ho hr | refused hl ho hr => simp [hr, hl]

theorem Decided.of_iff {l' o' : Prop} (hl : l ↔ l') (ho : o ↔ o') : Decided l' o' r := by
  rwa [propext hl, propext ho] at h

end

/-- A second part runs where the first one succeeds. -/
theorem Decided.bind {β : Type} {x : Except Err α} {f : α → Except Err β} {u v : Prop}
    (hx : Decided l o x) (hf : ∀ a, x = .ok a → Decided u v (f a)) :
    Decided (l ∧ u) (o ∨ l ∧ v) (x >>= f) := by
  cases hx with
  | packed a hl ho hr =>
    rw [hr]
    exact (hf a hr).of_iff (by simp [hl]) (by simp [hl, ho])
  | wild hl ho hr => exact .wild (fun h => hl h.1) (.inl ho) (by rw [hr]; rfl)
  | refused hl ho hr =>
    exact .refused (fun h => hl h.1) (fun h => h.elim ho fun h => hl h.1) (by rw [hr]; rfl)

/-- The packer has its buffer and its table, and the table is not overrun. -/
structure Sound (m : ℕ) (p : Pack) : Prop where
  buf : m ≤ p.buf.length
  toc : p.toc.length = tocRoom * 8
  tocIdx : p.tocIdx ≤ tocRoom

theorem slvalc_data {off : ℕ} (hm : m ≤ buf.length) (w : ℕ) : slvalc .data buf off m w =
      if off + 8 ≤ m then .ok (splice buf off (word w)) else .error .fail := by
  unfold slvalc
  split_ifs with h₁ h₂ h₂
  · omega
  · rfl
  · exact put_ok (by rw [length_word]; omega)
  · omega

/-- The bound check of an entry passes one entry more than there is room for. -/
theorem slvalc_toc {toc : List UInt8} (ht : toc.length = tocRoom * 8) (hi : idx ≤ tocRoom) (w : ℕ) :
    slvalc .toc toc (idx * 8) maxSlqToc w =
      if idx < tocRoom then .ok (splice toc (idx * 8) (word w)) else .error (.wild .toc) := by
  unfold tocRoom at *
  unfold slvalc maxSlqToc
  rw [if_neg (by omega)]
  split_ifs with h
  · exact put_ok (by rw [length_word]; omega)
  · unfold put write
    rw [if_neg (by rw [length_word]; omega)]

theorem emitRaw_decided (hm : m ≤ p.buf.length) (bs : List UInt8) :
    Decided (p.offset + bs.length ≤ m) False (emitRaw bs m p) := by
  by_cases h : p.offset + bs.length ≤ m
  · exact .packed _ h not_false (emitRaw_ok hm h)
  · exact .refused h not_false (emitRaw_fail (by omega))

theorem slPackEntry_decided (hp : Sound m p) (type val : ℕ) :
    Decided (p.tocIdx < tocRoom ∧ p.offset + 8 ≤ m) (p.tocIdx = tocRoom)
      (slPackEntry type val m p) := by
  have htoc := hp.tocIdx
  unfold slPackEntry
  rw [slvalc_toc hp.toc hp.tocIdx]
  split_ifs with hi
  · rw [slvalc_data hp.buf]
    split_ifs with ho
    · exact .packed _ ⟨hi, ho⟩ (by omega) rfl
    · exact .refused (by omega) (by omega) rfl
  · exact .wild (by omega) (by omega) rfl

theorem Sound.of_wrote {p' : Pack} {d : List UInt8} {t : List ℕ} (hp : Sound m p)
    (hw : Wrote p p' d t) : Sound m p' := by
  have hb := hp.buf
  have ht := hp.toc
  have hi := hp.tocIdx
  refine ⟨by rw [hw.bufLength]; exact hb, by rw [hw.tocLength]; exact ht, ?_⟩
  have hlen := congrArg List.length hw.toc
  rw [length_take, length_append, length_take, length_flatMap_word, hw.tocLength] at hlen
  rw [hw.tocIdx]
  omega

theorem slPackToc_decided {tocBuf : List UInt8} {len : ℕ} (hm : m ≤ buf.length)
    (h16 : 16 < m) (ht : tocBuf.length = maxSlqToc) (hi : idx ≤ tocRoom) :
    Decided (docSize len idx < m) False (slPackToc buf tocBuf len idx m) := by
  unfold tocRoom maxSlqToc at *
  have h₁ : ∀ x, sivalc .data buf 8 m x = .ok (splice buf 8 (leBytes 4 x)) := fun x =>
    sivalc_eq_ok.mpr ⟨by omega, by omega, rfl⟩
  have hl₁ : ∀ x, (splice buf 8 (leBytes 4 x)).length = buf.length := fun x =>
    length_splice (by rw [length_leBytes]; omega)
  have h₂ : ∀ x y, sivalc .data (splice buf 8 (leBytes 4 x)) 12 m y =
      .ok (splice (splice buf 8 (leBytes 4 x)) 12 (leBytes 4 y)) := fun x y =>
    sivalc_eq_ok.mpr ⟨by omega, by rw [hl₁]; omega, rfl⟩
  have hl₂ : ∀ x y, (splice (splice buf 8 (leBytes 4 x)) 12 (leBytes 4 y)).length =
      buf.length := fun x y => by
    rw [length_splice (by rw [length_leBytes, hl₁]; omega), hl₁]
  have h₃ : ∀ w, slvalc .toc tocBuf 0 8192 w = .ok (splice tocBuf 0 (word w)) := fun w =>
    slvalc_eq_ok.mpr ⟨by omega, by omega, rfl⟩
  have hl₃ : ∀ w, (splice tocBuf 0 (word w)).length = 8192 := fun w => by
    rw [length_splice_word _ (by omega), ht]
  unfold slPackToc maxSlqToc
  rw [h₁, ok_bind, h₂, ok_bind, h₃, ok_bind]
  dsimp only
  unfold docSize
  split_ifs with hfit
  · exact .refused (by omega) not_false rfl
  · have hin : 0 + (idx + 1) * 8 ≤
        (splice tocBuf 0 (word (slPackTag sqTypeToc (idx + 1) 0))).length := by
      rw [hl₃]
      omega
    obtain ⟨entries, hread, hlen⟩ := read_isSome hin
    rw [hread]
    dsimp only
    rw [put_ok (by rw [hlen, hl₂]; omega)]
    exact .packed _ (by omega) not_false rfl

section
variable (h : Host) (hloop : ∀ m p, Sound m p → Decided (LaidAll m p.offset p.tocIdx items)
  (OverrunsAll m p.offset p.tocIdx items) (emitAll h items m p))
include hloop

theorem slPackLenOf_decided (hm : m ≤ buf.length) :
    Decided (16 < m ∧ LaidAll (m - 16) 0 0 items ∧ docSize (sizeAll items) (tocsAll items) < m)
      (16 < m ∧ OverrunsAll (m - 16) 0 0 items) (slPackLenOf h (emitAll h items) buf m) := by
  unfold slPackLenOf
  split_ifs with hsmall
  · exact .refused (by omega) (by omega) rfl
  have hmagic : 0 + magic.length ≤ buf.length := by
    rw [show magic.length = 8 from rfl]
    omega
  have hlen := length_splice hmagic
  have hstack : h.stack.toList.length = maxSlqToc := Vector.length_toList
  have hsound : Sound (m - 16) ⟨(splice buf 0 magic).drop 16, h.stack.toList.drop 8, 0, 0⟩ :=
    ⟨by rw [length_drop]; omega, by rw [length_drop, hstack]; rfl, zero_le⟩
  rw [put_ok hmagic]
  refine ((hloop _ _ hsound).bind (fun p hp => ?_)).of_iff
    (l := LaidAll (m - 16) 0 0 items ∧ docSize (sizeAll items) (tocsAll items) < m)
    (o := OverrunsAll (m - 16) 0 0 items ∨ LaidAll (m - 16) 0 0 items ∧ False)
    ⟨fun hl => ⟨by omega, hl⟩, fun hl => hl.2⟩ ⟨fun ho => ?_, fun ho => .inl ho.2⟩
  · have hw := emitAll_wrote h items _ _ _ hsound.buf hp
    have hs := hsound.of_wrote hw
    have ho : p.offset = sizeAll items := by
      rw [hw.offset, length_dataAll]
      exact Nat.zero_add _
    have hi : p.tocIdx = tocsAll items := by
      rw [hw.tocIdx, length_tocAll]
      exact Nat.zero_add _
    rw [ho, hi]
    refine slPackToc_decided ?_ (by omega) ?_ (by rw [← hi]; exact hs.tocIdx)
    · rw [length_append, length_take, hw.bufLength, length_drop]
      omega
    · rw [length_append, length_take, hs.toc, hstack]
      rfl
  · rcases ho with ho | ho
    · exact ⟨by omega, ho⟩
    · exact ho.2.elim

theorem slPackFilemeta_decided (hp : Sound m p) :
    Decided ((Item.doc items).Laid m p.offset p.tocIdx)
      ((Item.doc items).Overruns m p.offset p.tocIdx)
      (slPackFilemeta (slPackLenOf h (emitAll h items)) m p) := by
  have hb := hp.buf
  rw [Item.Laid, Item.Overruns]
  unfold slPackFilemeta
  rw [slvalc_data hp.buf]
  by_cases h8 : p.offset + 8 ≤ m
  swap
  · rw [if_neg h8]
    exact .refused (by omega) (by omega) rfl
  dsimp only
  split_ifs with hsmall
  · exact .refused (by omega) (by omega) rfl
  have hlen := length_splice_word (slPackTag sqTypeComplex 1 (p.tocIdx + 1)) (h8.trans hb)
  have hsub : m - (p.offset + 16) ≤ ((splice p.buf p.offset
      (word (slPackTag sqTypeComplex 1 (p.tocIdx + 1)))).drop (p.offset + 16)).length := by
    rw [length_drop]
    omega
  refine ((slPackLenOf_decided h hloop hsub).bind (u := p.tocIdx < tocRoom)
    (v := p.tocIdx = tocRoom) fun r hr => ?_).of_iff ?_ ?_
  · have hw := wrote_doc (emitAll_wrote h items) hsub hr
    have hbuf : m ≤ ((splice p.buf p.offset (word (slPackTag sqTypeComplex 1 (p.tocIdx + 1)))).take
        (p.offset + 16) ++ r.1).length := by
      rw [length_append, hw.length, length_take]
      omega
    rw [slvalc_data hbuf, if_pos (by omega), slvalc_toc hp.toc hp.tocIdx]
    have hi := hp.tocIdx
    by_cases hroom : p.tocIdx < tocRoom
    · rw [if_pos hroom]
      exact .packed _ hroom (by omega) rfl
    · rw [if_neg hroom]
      exact .wild hroom (by omega) rfl
  · exact ⟨fun ⟨⟨_, hl, hs⟩, hi⟩ => ⟨hi, by omega, hl, by omega⟩,
      fun ⟨hi, _, hl, hs⟩ => ⟨⟨by omega, hl, by omega⟩, hi⟩⟩
  · constructor
    · rintro (⟨_, ho⟩ | ⟨⟨_, hl, hs⟩, hi⟩)
      · exact ⟨by omega, .inl ho⟩
      · exact ⟨by omega, .inr ⟨hl, by omega, hi⟩⟩
    · rintro ⟨_, ho | ⟨hl, hs, hi⟩⟩
      · exact .inl ⟨by omega, ho⟩
      · exact .inr ⟨⟨by omega, hl, by omega⟩, hi⟩

end

mutual
theorem emit_decided (h : Host) : (i : Item) → ∀ m p, Sound m p →
    Decided (i.Laid m p.offset p.tocIdx) (i.Overruns m p.offset p.tocIdx) (emit h i m p)
  | .raw bs, m, p, hp => by
      exact emitRaw_decided hp.buf bs
  | .entry type val bs, m, p, hp => by
      rw [Item.Laid, Item.Overruns, emit]
      refine ((slPackEntry_decided hp type val).bind (u := p.offset + 8 + bs.length ≤ m)
        (v := False) fun q hq => ?_).of_iff (by omega) (by simp)
      have hw := wrote_entry hq
      have hraw := emitRaw_decided (hp.of_wrote hw).buf bs
      rwa [hw.offset, length_word] at hraw
  | .doc items, m, p, hp => slPackFilemeta_decided h (emitAll_decided h items) hp
  | .bad, m, p, hp => by
      exact .refused not_false not_false rfl

/-- How packing a layout ends. -/
theorem emitAll_decided (h : Host) : (is : List Item) → ∀ m p, Sound m p →
    Decided (LaidAll m p.offset p.tocIdx is) (OverrunsAll m p.offset p.tocIdx is)
      (emitAll h is m p)
  | [], m, p, hp => by
      exact .packed p trivial not_false rfl
  | i :: is, m, p, hp => by
      refine (emit_decided h i m p hp).bind fun q hq => ?_
      have hw := emit_wrote h i m p q hp.buf hq
      have hrest := emitAll_decided h is m q (hp.of_wrote hw)
      rwa [hw.offset, hw.tocIdx, i.length_data, i.length_toc] at hrest
end

/-- How packing a tree ends. -/
theorem slPackLen_decided (h : Host) (query : List Node) (hm : m ≤ buf.length) :
    Decided (16 < m ∧ LaidAll (m - 16) 0 0 (flatten h query) ∧
        docSize (sizeAll (flatten h query)) (tocsAll (flatten h query)) < m)
      (16 < m ∧ OverrunsAll (m - 16) 0 0 (flatten h query)) (slPackLen h query buf m) := by
  rw [slPackLen_eq_emitAll h query hm]
  exact slPackLenOf_decided h (emitAll_decided h _) hm

/-! ### Trees that leave the table of contents -/

/-- Packing a tree leaves the table of contents exactly if, in the query's document or in that of
a filemeta value, the 1024th compound element is reached with all before it packed. -/
theorem slPackLen_wild_iff (h : Host) (query : List Node) {buf : List UInt8} {m : ℕ}
    (hm : m ≤ buf.length) : slPackLen h query buf m = .error (.wild .toc) ↔
      16 < m ∧ OverrunsAll (m - 16) 0 0 (flatten h query) :=
  (slPackLen_decided h query hm).wild_iff

/-- A host whose clock and charset tables are empty and whose stack is clear. -/
def plainHost : Host where
  dateBits _ := 0
  bitsDate _ := ⟨0, 0⟩
  ucs2ToUtf8 _ := none
  stack := Vector.replicate 8192 0

theorem slPackLen_wild_iff_nested :
    maxSlqDat ≤ (List.replicate maxSlqDat (0 : UInt8)).length ∧
      slPackLen plainHost [.array [.array [], .nil]] (List.replicate maxSlqDat 0) maxSlqDat ≠
        .error (.wild .toc) := by
  have hm : maxSlqDat ≤ (replicate maxSlqDat (0 : UInt8)).length :=
    le_of_eq length_replicate.symm
  refine ⟨hm, fun hwild => ?_⟩
  obtain ⟨_, hover⟩ := (slPackLen_wild_iff plainHost [.array [.array [], .nil]] hm).mp hwild
  simp [flatten, Node.items, OverrunsAll, Item.Overruns, Item.tocs, tocRoom] at hover

theorem flatten_replicate_empty (h : Host) (k : ℕ) :
    flatten h (List.replicate k (.array [])) = List.replicate k (.entry sqCpxTypeArray 0 []) := by
  induction k with
  | zero => rfl
  | succ k ih => rw [replicate_succ, flatten, ih, replicate_succ]; rfl

theorem overrunsAll_replicate {o k : ℕ} (type val : ℕ) (hi : idx ≤ tocRoom) (hk : tocRoom < idx + k)
    (ho : o + 8 * k ≤ m) : OverrunsAll m o idx (List.replicate k (.entry type val [])) := by
  induction k generalizing o idx with
  | zero => omega
  | succ k ih =>
    rw [replicate_succ, OverrunsAll, Item.Laid, Item.size, Item.tocs,
      length_nil]
    by_cases hlast : idx = tocRoom
    · exact .inl hlast
    · exact .inr ⟨⟨by omega, by omega⟩, ih (by omega) (by omega) (by omega)⟩

/-- An array of 1023 empty arrays needs one entry more than the table holds. -/
theorem slPack_wild_arrays :
    slPackLen plainHost [.array (List.replicate 1023 (.array []))] (List.replicate maxSlqDat 0)
      maxSlqDat = .error (.wild .toc) := by
  have hm : maxSlqDat ≤ (replicate maxSlqDat (0 : UInt8)).length :=
    le_of_eq length_replicate.symm
  refine (slPackLen_decided plainHost _ hm).wild_iff.mpr ⟨by decide, ?_⟩
  have hflat : flatten plainHost [.array (replicate 1023 (.array []))] =
      .entry sqCpxTypeArray 1023 [] :: replicate 1023 (.entry sqCpxTypeArray 0 []) := by
    rw [flatten, flatten, Node.items, flatten_replicate_empty, length_replicate,
      append_nil]
  rw [hflat, OverrunsAll, Item.tocs]
  exact .inr ⟨⟨by decide, by decide⟩,
    overrunsAll_replicate _ _ (by decide) (by decide) (by decide)⟩

/-! ### Trees that cannot -/

mutual
/-- The nested documents of an item have room for their entries. -/
def Item.Small : Item → Prop
  | .doc items => tocsAll items ≤ tocRoom ∧ SmallAll items
  | _ => True

/-- All nested documents of a layout have room for their entries. -/
def SmallAll : List Item → Prop
  | [] => True
  | i :: is => i.Small ∧ SmallAll is
end

mutual
theorem Item.Small.not_overruns : (i : Item) → i.Small → ∀ m o idx, idx + i.tocs ≤ tocRoom →
    ¬ i.Overruns m o idx
  | .raw _, _, m, o, idx, _ | .bad, _, m, o, idx, _ => by simp [Item.Overruns]
  | .entry type val bs, _, m, o, idx, hi => by
      rw [Item.Overruns]
      rw [Item.tocs] at hi
      omega
  | .doc items, hs, m, o, idx, hi => by
      rw [Item.Small] at hs
      rw [Item.tocs] at hi
      rintro ⟨_, hover | ⟨_, _, hidx⟩⟩
      · exact SmallAll.not_overruns items hs.2 _ _ _ (by omega) hover
      · omega

theorem SmallAll.not_overruns : (is : List Item) → SmallAll is → ∀ m o idx,
    idx + tocsAll is ≤ tocRoom → ¬ OverrunsAll m o idx is
  | [], _, m, o, idx, _ => by simp [OverrunsAll]
  | i :: is, hs, m, o, idx, hi => by
      rw [tocsAll_cons] at hi
      rintro (hover | ⟨_, hover⟩)
      · exact Item.Small.not_overruns i hs.1 m o idx (by omega) hover
      · exact SmallAll.not_overruns is hs.2 _ _ _ (by omega) hover
end

/-- A tree of documents with at most 1023 compound elements each stays inside the tables. -/
theorem slPackLen_ne_wild (h : Host) {query : List Node}
    (hm : m ≤ buf.length) (htocs : tocsAll (flatten h query) ≤ tocRoom)
    (hs : SmallAll (flatten h query)) : slPackLen h query buf m ≠ .error (.wild .toc) := by
  intro hwild
  obtain ⟨_, hover⟩ := (slPackLen_decided h query hm).wild_iff.mp hwild
  exact SmallAll.not_overruns _ hs _ _ _ (by omega) hover

/-! ### Writes stay below the limit -/

section confined
variable {buf' : List UInt8} {n : ℕ} {p' : Pack} {loop : ℕ → Pack → Except Err Pack}

/-- A buffer whose tail was handed to a callee that kept what is behind its own limit. -/
theorem drop_handed {k : ℕ} (hk : k ≤ m) (hm : m ≤ buf.length)
    (hsub : buf'.drop (m - k) = (buf.drop k).drop (m - k)) :
    (buf.take k ++ buf').drop m = buf.drop m := by
  have hlen : (buf.take k).length = k := by
    rw [length_take]
    omega
  rw [drop_append, hlen, hsub, drop_drop, Nat.add_sub_cancel' hk,
    drop_of_length_le (by omega), nil_append]

theorem slPackLenOf_drop (h : Host) (hloop : ∀ m p p', m ≤ p.buf.length → loop m p = .ok p' →
      p'.buf.length = p.buf.length ∧ p'.buf.drop m = p.buf.drop m) (hm : m ≤ buf.length)
    (hok : slPackLenOf h loop buf m = .ok (buf', n)) : buf'.drop m = buf.drop m := by
  unfold slPackLenOf slPackToc at hok
  dsimp only at hok
  split_ifs at hok with hsmall
  obtain ⟨b, hput, hok⟩ := bind_eq_ok.mp hok
  obtain ⟨p, hp, hok⟩ := bind_eq_ok.mp hok
  obtain ⟨b₁, h₁, hok⟩ := bind_eq_ok.mp hok
  obtain ⟨b₂, h₂, hok⟩ := bind_eq_ok.mp hok
  obtain ⟨toc, _, hok⟩ := bind_eq_ok.mp hok
  obtain ⟨hf, rfl⟩ := put_eq_ok.mp hput
  obtain ⟨hm₁, hf₁, rfl⟩ := sivalc_eq_ok.mp h₁
  obtain ⟨hm₂, hf₂, rfl⟩ := sivalc_eq_ok.mp h₂
  split_ifs at hok with hfit
  cases hread : read toc 0 ((p.tocIdx + 1) * 8) with
  | none => simp [hread] at hok
  | some entries =>
    rw [hread] at hok
    obtain ⟨b₃, h₃, hok⟩ := bind_eq_ok.mp hok
    obtain ⟨hf₃, rfl⟩ := put_eq_ok.mp h₃
    cases hok
    have hlen := length_splice hf
    have hlast : entries.length = (p.tocIdx + 1) * 8 := by
      rw [← (read_eq_some.mp hread).2, length_take, length_drop]
      have := (read_eq_some.mp hread).1
      omega
    have hrest := hloop _ _ _ (by rw [length_drop]; omega) hp
    have hkeep := drop_splice hf (show 8 ≤ m by omega)
    rw [drop_splice hf₃ (by omega), drop_splice (by rwa [length_leBytes]) (by rwa [length_leBytes]),
      drop_splice (by rwa [length_leBytes]) (by rwa [length_leBytes]),
      drop_handed (by omega) (by omega) hrest.2, hkeep]

theorem slPackFilemeta_drop {len : List UInt8 → ℕ → Except Err (List UInt8 × ℕ)}
    (hlen : ∀ buf buf' m n, m ≤ buf.length → len buf m = .ok (buf', n) →
      buf'.length = buf.length ∧ buf'.drop m = buf.drop m) (hm : m ≤ p.buf.length)
    (hok : slPackFilemeta len m p = .ok p') : p'.buf.drop m = p.buf.drop m := by
  obtain ⟨b, hb, hok⟩ := bind_eq_ok.mp hok
  obtain ⟨hc, hc', rfl⟩ := slvalc_eq_ok.mp hb
  dsimp only at hok
  split_ifs at hok with hsmall
  obtain ⟨⟨sub, n⟩, hsub, hok⟩ := bind_eq_ok.mp hok
  obtain ⟨b, hb, hok⟩ := bind_eq_ok.mp hok
  obtain ⟨hd, hd', rfl⟩ := slvalc_eq_ok.mp hb
  obtain ⟨toc, _, hok⟩ := bind_eq_ok.mp hok
  cases hok
  have hl := length_splice_word (slPackTag sqTypeComplex 1 (p.tocIdx + 1)) hc'
  have hsub := hlen _ _ _ _ (by rw [length_drop]; omega) hsub
  rw [drop_splice (by rwa [length_word]) (by rwa [length_word]),
    drop_handed (by omega) (by omega) hsub.2,
    drop_splice (by rwa [length_word]) (by rwa [length_word])]

mutual
theorem emit_drop (h : Host) : (i : Item) → ∀ m p p', m ≤ p.buf.length → emit h i m p = .ok p' →
    p'.buf.drop m = p.buf.drop m
  | .raw bs, m, p, p', hm, hok => by
      obtain ⟨hle, rfl⟩ := (emitRaw_eq_ok hm).mp hok
      exact drop_splice (by omega) hle
  | .entry type val bs, m, p, p', hm, hok => by
      obtain ⟨q, hq, hok⟩ := bind_eq_ok.mp hok
      have hw := wrote_entry hq
      obtain ⟨_, ⟨hq₁, hq₂⟩, rfl⟩ := slPackEntry_eq_ok.mp hq
      obtain ⟨hle, rfl⟩ := (emitRaw_eq_ok (by rw [hw.bufLength]; exact hm)).mp hok
      refine (drop_splice (by rw [hw.bufLength]; omega) hle).trans ?_
      exact drop_splice (by rwa [length_word]) (by rwa [length_word])
  | .doc items, m, p, p', hm, hok => by
      refine slPackFilemeta_drop (fun buf buf' m n hm hdoc => ⟨?_, ?_⟩) hm hok
      · exact (wrote_doc (emitAll_wrote h items) hm hdoc).length
      · refine slPackLenOf_drop h (fun m p p' hm hp => ?_) hm hdoc
        exact ⟨(emitAll_wrote h items m p p' hm hp).bufLength, emitAll_drop h items m p p' hm hp⟩
  | .bad, m, p, p', hm, hok => by simp [emit] at hok

/-- Packing a layout keeps what is behind the limit. -/
theorem emitAll_drop (h : Host) : (is : List Item) → ∀ m p p', m ≤ p.buf.length →
    emitAll h is m p = .ok p' → p'.buf.drop m = p.buf.drop m
  | [], m, p, p', _, hok => by rw [Except.ok.inj hok]
  | i :: is, m, p, p', hm, hok => by
      obtain ⟨q, hq, hok⟩ := bind_eq_ok.mp hok
      have hl := (emit_wrote h i m p q hm hq).bufLength
      exact (emitAll_drop h is m q p' (by omega) hok).trans (emit_drop h i m p q hm hq)
end

/-- Whatever the tree, its nesting and the limit, no write leaves the buffer, even one that ends
at the limit; a packed document ends before the limit and what is behind the limit is kept. -/
theorem slPackLen_confined (h : Host) (query : List Node) (hm : m ≤ buf.length) :
    slPackLen h query buf m ≠ .error (.wild .data) ∧
      ∀ buf' n, slPackLen h query buf m = .ok (buf', n) →
        n < m ∧ buf'.length = buf.length ∧ buf'.drop m = buf.drop m := by
  constructor
  · intro hwild
    cases slPackLen_decided h query hm with
    | packed _ _ _ hr | wild _ _ hr | refused _ _ hr => simp [hr] at hwild
  · intro buf' n hok
    have hw := slPackLen_layout hm hok
    rw [slPackLen_eq_emitAll h query hm] at hok
    refine ⟨hw.lt, hw.length, slPackLenOf_drop h (fun m p p' hm hp => ?_) hm hok⟩
    exact ⟨(emitAll_wrote h _ m p p' hm hp).bufLength, emitAll_drop h _ m p p' hm hp⟩

end confined

theorem slPackLen_confined_filemeta : 64 ≤ (List.replicate 64 (0 : UInt8)).length ∧
    slPackLen plainHost [.filemeta [.array [.nil]]] (List.replicate 64 0) 64 ≠
      .error (.wild .data) := by
  have hm : 64 ≤ (replicate 64 (0 : UInt8)).length := le_of_eq length_replicate.symm
  exact ⟨hm, (slPackLen_confined plainHost _ hm).1⟩

end Netatalk.Spotlight
