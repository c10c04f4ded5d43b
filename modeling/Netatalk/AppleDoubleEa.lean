import Netatalk.AppleDoubleTable

/-! # Rebuilding the header of the metadata EA

A header that was read from the metadata EA and rebuilt is not always read again.  `ad_init` has
filled the table before, so `ad_header_read_ea` finds the entries of the layout also when another
id takes the place of one of them in the EA, and the rebuilt header then has a descriptor too many.
`Kept` says which values of the EA come through (`eaRoundTrip_iff`). -/

namespace Netatalk.AppleDouble

open List Bytes

variable {e : Eid}

section
variable (haveEafd : Bool) {blob : List UInt8} {ad : Adouble}

/-! ### Reading -/

/-- What the last descriptors of an EA and the layout say about the entries. -/
def tableEa (blob : List UInt8) : Table := describe (initTable haveEafd .ea) (descs blob)

/-- An entry that has an offset and fits the EA. -/
def EntryOk (t : Table) (e : Eid) : Prop :=
  (t e).off ≠ 0 ∧ adEntryCheckSize e adDataszEa (t e).off (t e).len = true

/-- The values of the EA that `ad_header_read_ea` accepts. -/
structure AcceptedEa (blob : List UInt8) : Prop where
  size : blob.length = adDataszEa
  magic : word 4 blob 0 = adMagic
  version : word 4 blob adedoffVersion = adVersion2
  number : count blob = adeidNumEa
  ok : ∀ d ∈ descs blob, d.Ok adDataszEa
  entries : ∀ e ∈ eaEids, EntryOk (tableEa haveEafd blob) e

/-- The table after `ad_header_read_ea`. -/
def finalTable (blob : List UInt8) : Table :=
  if haveEafd then tableEa haveEafd blob
  else (tableEa haveEafd blob).setOff .rfork adedoffRforkOsx

/-- The adouble after `ad_header_read_ea`. -/
def openedEa (blob : List UInt8) : Adouble :=
  { adInit haveEafd .ea with
    eid := finalTable haveEafd blob
    data := splice (List.replicate adDataszMax 0) 0 blob }

theorem openedEa_eid : (openedEa haveEafd blob).eid = finalTable haveEafd blob := rfl

theorem adEntry_isNone (hvers : ad.vers = .ea) (hlen : ad.validDataLen = adDataszEa)
    (he : e ∈ eaEids) : (adEntry haveEafd ad e).isNone = true ↔ ¬ EntryOk ad.eid e := by
  have hne : ¬ (e = .dfork ∨ e = .rfork ∧ haveEafd = true) := by
    have : ∀ e ∈ eaEids, e ≠ .dfork ∧ e ≠ .rfork := by decide
    simp [this e he]
  have hoff : adGetentryoff haveEafd ad e = (ad.eid e).off := by
    simp only [adGetentryoff, hvers, if_neg hne]
  simp [adEntry, adEntryFits, EntryOk, hoff, hlen]

/-- The adouble after the entries are parsed. -/
def parsedEa (blob : List UInt8) : Adouble :=
  { adInit haveEafd .ea with
    eid := tableEa haveEafd blob
    data := splice (List.replicate adDataszMax 0) 0 blob }

section sized
variable (hsize : blob.length = adDataszEa)
include hsize

omit haveEafd in
theorem word_buffer {n off : ℕ} (h : off + n ≤ adDataszEa) :
    word n (splice (List.replicate adDataszMax 0) 0 blob) off = word n blob off := by
  rw [splice_zero, word_append _ (by omega)]

omit haveEafd in
theorem descriptors_buffer (hn : count blob = adeidNumEa) :
    descriptors adeidNumEa ((splice (List.replicate adDataszMax 0) 0 blob).drop adHeaderLen) =
      descs blob := by
  rw [descs, hn, splice_zero, drop_append_of_le_length, descriptors_append]
  · rw [length_drop, hsize]
    decide
  · rw [hsize]
    decide

theorem parse_buffer (hm : word 4 blob 0 = adMagic) (hv : word 4 blob adedoffVersion = adVersion2)
    (hn : count blob = adeidNumEa) : parseEntries { adInit haveEafd .ea with
        data := splice (adInit haveEafd .ea).data 0 blob
        magic := word 4 blob 0
        version := word 4 blob adedoffVersion } (count blob) blob.length = some ad ↔
      (∀ d ∈ descs blob, d.Ok adDataszEa) ∧ ad = parsedEa haveEafd blob := by
  rw [parseEntries_eq_some, hn, hm, hv, hsize]
  simp only [adInit, descriptors_buffer hsize hn]
  rfl

end sized

theorem parsedEa_entries :
    (eaEids.any fun e => (adEntry haveEafd (parsedEa haveEafd blob) e).isNone) = true ↔
      ¬ ∀ e ∈ eaEids, EntryOk (tableEa haveEafd blob) e := by
  simp only [List.any_eq_true, not_forall, exists_prop]
  refine exists_congr fun e => and_congr_right fun he => ?_
  exact adEntry_isNone haveEafd rfl rfl he

theorem parsedEa_final : (if (parsedEa haveEafd blob).vers = .ea ∧ ¬ haveEafd then
      some { parsedEa haveEafd blob with
        eid := (parsedEa haveEafd blob).eid.setOff .rfork adedoffRforkOsx }
      else some (parsedEa haveEafd blob)) = some (openedEa haveEafd blob) := by
  cases haveEafd <;> rfl

theorem adHeaderReadEa_eq_some : adHeaderReadEa haveEafd (adInit haveEafd .ea) blob = some ad ↔
      AcceptedEa haveEafd blob ∧ ad = openedEa haveEafd blob := by
  by_cases hsize : blob.length = adDataszEa
  swap
  · have hne : adDataszEa < blob.length ∨ blob.length < adDataszEa := by omega
    simp only [adHeaderReadEa, if_pos hne, reduceCtorEq, false_iff, not_and]
    exact fun h => absurd h.size hsize
  have h₀ : word 4 (splice (adInit haveEafd .ea).data 0 blob) 0 = word 4 blob 0 :=
    word_buffer hsize (by decide)
  have h₄ : word 4 (splice (adInit haveEafd .ea).data 0 blob) adedoffVersion =
      word 4 blob adedoffVersion := word_buffer hsize (by decide)
  have h₂ : word 2 (splice (adInit haveEafd .ea).data 0 blob) adedoffNentries = count blob :=
    word_buffer hsize (by decide)
  have hlen : ¬ (adDataszEa < blob.length ∨ blob.length < adDataszEa) := by omega
  simp only [adHeaderReadEa, h₀, h₄, h₂, if_neg hlen, Option.ite_none_left_eq_some, not_or, not_not]
  constructor
  · rintro ⟨⟨hm, hv⟩, hn, h⟩
    split at h
    · cases h
    case _ ad' hparse =>
      obtain ⟨hok, rfl⟩ := (parse_buffer haveEafd hsize hm hv hn).mp hparse
      rw [Option.ite_none_left_eq_some, parsedEa_entries, not_not, parsedEa_final] at h
      exact ⟨⟨hsize, hm, hv, hn, hok, h.1⟩, (Option.some.inj h.2).symm⟩
  · rintro ⟨hacc, rfl⟩
    refine ⟨⟨hacc.magic, hacc.version⟩, hacc.number, ?_⟩
    rw [(parse_buffer haveEafd hsize hacc.magic hacc.version hacc.number).mpr ⟨hacc.ok, rfl⟩]
    dsimp only
    rw [Option.ite_none_left_eq_some, parsedEa_entries, not_not]
    exact ⟨hacc.entries, parsedEa_final haveEafd⟩

/-! ### Rebuilding -/

theorem ne_rfork_of_mem_eaEids : ∀ e ∈ eaEids, e ≠ .rfork := by decide

/-- The value of the EA that `ad_rebuild_adouble_header_ea` leaves to be written. -/
def rebuiltEa (ad : Adouble) : List UInt8 :=
  (adRebuildAdoubleHeaderEa ad).2.data.take (adRebuildAdoubleHeaderEa ad).1

/-- The rebuilt EA is accepted, with the same table and the same bytes of every entry. -/
def EaRoundTrip (blob : List UInt8) (ad : Adouble) : Prop :=
  ∃ ad', adHeaderReadEa haveEafd (adInit haveEafd .ea) (rebuiltEa ad) = some ad' ∧
    ad'.eid = ad.eid ∧
    ∀ e, entryBytes (rebuiltEa ad) (ad'.eid e) = entryBytes blob (ad.eid e)

/-- The values of the EA that come through: their descriptors leave every entry outside the layout
as it was, and where an entry reaches into the descriptors it has the bytes that the descriptors of
the layout's entries, in the order of their numbers, have there. -/
structure Kept (blob : List UInt8) : Prop where
  foreign : ∀ e, e ∉ eaEids → e ≠ .rfork → tableEa haveEafd blob e = ⟨0, 0⟩
  rfork : (tableEa haveEafd blob .rfork).len = 0 ∧
    (haveEafd → (tableEa haveEafd blob .rfork).off = 0)
  intact : ∀ e ∈ eaEids, ∀ i, (tableEa haveEafd blob e).off ≤ i →
    i < (tableEa haveEafd blob e).off + (tableEa haveEafd blob e).len → adHeaderLen ≤ i →
    i < adHeaderLen + adeidNumEa * adEntryLen →
    blob[i]? = (encode (listed (tableEa haveEafd blob) eaEids))[i - adHeaderLen]?

/-- The entries that a rebuilt EA describes. -/
def presentEa (blob : List UInt8) : List Eid :=
  present (fun e => e = .rfork) (finalTable haveEafd blob)

theorem finalTable_of_ne (he : e ≠ .rfork) :
    finalTable haveEafd blob e = tableEa haveEafd blob e := by
  rw [finalTable]
  split_ifs
  · rfl
  · exact Function.update_of_ne he _ _

theorem finalTable_rfork : finalTable haveEafd blob .rfork =
    ⟨if haveEafd then (tableEa haveEafd blob .rfork).off else adedoffRforkOsx,
      (tableEa haveEafd blob .rfork).len⟩ := by
  cases haveEafd with
  | true => rfl
  | false => simp [finalTable, Table.setOff]

theorem initTable_ea (he : e ∉ eaEids) (hr : e ≠ .rfork) : initTable haveEafd .ea e = ⟨0, 0⟩ := by
  revert e
  cases haveEafd <;> decide

theorem mem_presentEa :
    e ∈ presentEa haveEafd blob ↔ (tableEa haveEafd blob e).off ≠ 0 ∧ e ≠ .rfork := by
  simp only [presentEa, present, mem_filter, mem_finRange, true_and, Bool.not_eq_true',
    Bool.or_eq_false_iff, decide_eq_false_iff_not]
  refine and_congr_left fun he => ?_
  rw [finalTable_of_ne haveEafd he]

theorem rebuiltEa_eq (h : AcceptedEa haveEafd blob) : rebuiltEa (openedEa haveEafd blob) =
      rewritten (finalTable haveEafd blob) (presentEa haveEafd blob) adDataszEa blob := by
  have hbuf : splice (replicate adDataszMax 0) 0 blob =
      blob ++ (replicate adDataszMax 0).drop blob.length := splice_zero
  have htake : ∀ r ≤ adDataszEa, (openedEa haveEafd blob).data.take r = blob.take r := by
    intro r hr
    rw [openedEa, hbuf, take_append_of_le_length (by rw [h.size]; exact hr)]
  have hlen : (openedEa haveEafd blob).data.length = adDataszMax := by
    rw [openedEa, length_splice, length_replicate]
    rw [h.size, length_replicate]
    decide
  have := writeBack_eq (fun e => e = .rfork) (r := adDataszEa) hlen
    ((word_buffer h.size (by decide)).trans h.magic)
    ((word_buffer h.size (by decide)).trans h.version)
    (htake _ le_rfl) (htake _ (by decide)) (le_of_eq h.size.symm)
    (by rw [h.size]; decide)
  rw [drop_of_length_le (le_of_eq h.size), append_nil] at this
  exact this

/-! ### Round trips -/

section accepted
variable {haveEafd} (h : AcceptedEa haveEafd blob)
include h

theorem AcceptedEa.header_le : adHeaderLen ≤ blob.length := by
  rw [h.size]
  decide

omit h in
theorem filter_eaEids : (List.finRange 20).filter (fun e => e ∈ eaEids) = eaEids := by decide

theorem AcceptedEa.sublist : List.Sublist eaEids (presentEa haveEafd blob) := by
  rw [← filter_eaEids, presentEa]
  refine monotone_filter_right _ fun e he => ?_
  have he' : e ∈ eaEids := by simpa using he
  have hmem := (mem_presentEa haveEafd).mpr ⟨(h.entries e he').1, ne_rfork_of_mem_eaEids e he'⟩
  exact (mem_filter.mp hmem).2

theorem AcceptedEa.present_of_foreign
    (hf : ∀ e, e ∉ eaEids → e ≠ .rfork → tableEa haveEafd blob e = ⟨0, 0⟩) :
    presentEa haveEafd blob = eaEids := by
  refine Sublist.antisymm ?_ h.sublist
  rw [← filter_eaEids]
  refine monotone_filter_right _ fun e he => ?_
  have hmem : e ∈ presentEa haveEafd blob := mem_filter.mpr ⟨mem_finRange e, he⟩
  obtain ⟨hoff, hne⟩ := (mem_presentEa haveEafd).mp hmem
  by_contra hnot
  have he' : e ∉ eaEids := by simpa using hnot
  exact hoff (by rw [hf e he' hne])

/-- The entries of the layout lie inside the EA and have numbers of 32 bits. -/
theorem AcceptedEa.listed_ok (he : e ∈ eaEids) :
    Descriptor.Ok adDataszEa ⟨eidDisk e, finalTable haveEafd blob e⟩ ∧
      Descriptor.Small ⟨eidDisk e, finalTable haveEafd blob e⟩ := by
  have hne : ∀ e ∈ eaEids, e ≠ 0 ∧ e ≠ .rfork := by decide
  have hinit : ∀ e ∈ eaEids, (initTable haveEafd .ea e).off ≤ adDataszEa ∧
      (initTable haveEafd .ea e).len ≤ adDataszEa - (initTable haveEafd .ea e).off := by
    cases haveEafd <;> decide
  have hin : (tableEa haveEafd blob e).off ≤ adDataszEa ∧
      (tableEa haveEafd blob e).len ≤ adDataszEa - (tableEa haveEafd blob e).off :=
    describe_rec (P := fun a => a.off ≤ adDataszEa ∧ a.len ≤ adDataszEa - a.off) (hinit e he)
      fun d hd hid => (h.ok d hd).2 (by rw [hid]; exact (hne e he).2)
  rw [finalTable_of_ne haveEafd (hne e he).2]
  refine ⟨⟨by rw [getEid_eidDisk]; exact (hne e he).1, fun _ => hin⟩, eidDisk_lt, ?_⟩
  simp only [adDataszEa] at hin ⊢
  omega

variable (haveEafd blob) in
/-- The EA rebuilt with the descriptors of the layout's entries. -/
abbrev relisted : List UInt8 :=
  rewritten (finalTable haveEafd blob) eaEids adDataszEa blob

theorem AcceptedEa.descs_rebuilt :
    descs (relisted haveEafd blob) = listed (finalTable haveEafd blob) eaEids := by
  refine descs_rewritten_of_le h.header_le (by decide) (by decide) (by decide) fun d hd => ?_
  obtain ⟨e, he, rfl⟩ := List.mem_map.mp hd
  exact (h.listed_ok he).2

/-- The table of a rebuilt EA with the descriptors of the layout's entries. -/
theorem AcceptedEa.tableEa_rebuilt : tableEa haveEafd (relisted haveEafd blob) e =
      if e ∈ eaEids then finalTable haveEafd blob e else initTable haveEafd .ea e := by
  rw [tableEa, h.descs_rebuilt, describe_listed]

/-- The bytes of a rebuilt EA outside the descriptors are the old ones. -/
theorem AcceptedEa.getElem?_rebuilt (i : ℕ) :
    (relisted haveEafd blob)[i]? =
      if adHeaderLen ≤ i ∧ i < adHeaderLen + adeidNumEa * adEntryLen then
        (encode (listed (finalTable haveEafd blob) eaEids))[i - adHeaderLen]?
      else blob[i]? := by
  have hmin : min adDataszEa (adHeaderLen + eaEids.length * adEntryLen) =
      adHeaderLen + adeidNumEa * adEntryLen := by decide
  rw [getElem?_rewritten h.header_le, hmin]
  by_cases hi : i < adHeaderLen + adeidNumEa * adEntryLen
  · rw [if_pos hi]
    by_cases hi' : adHeaderLen ≤ i
    · rw [if_pos ⟨hi', hi⟩, getElem?_header h.header_le hi']
    · rw [if_neg fun hc => hi' hc.1]
      by_cases h24 : i < adedoffNentries
      · exact getElem?_header_of_lt h.header_le h24
      · -- the number of entries is the same
        rw [getElem?_header_count h.header_le (by omega) (by omega)]
        have hn : word 2 blob adedoffNentries = eaEids.length := h.number
        have hlt : i - adedoffNentries < 2 := by
          simp only [adHeaderLen, adedoffNentries] at hi' ⊢
          omega
        rw [← hn, beBytes_word, getElem?_take, getElem?_drop, if_pos hlt,
          Nat.add_sub_cancel' (le_of_not_gt h24)]
        rw [h.size]
        decide
  · rw [if_neg hi, if_neg fun hc => hi hc.2]

/-- The resource fork is not in the rebuilt EA, so it gets the values of the layout. -/
theorem AcceptedEa.rfork_rebuilt :
    finalTable haveEafd (relisted haveEafd blob) .rfork = finalTable haveEafd blob .rfork ↔
      (tableEa haveEafd blob .rfork).len = 0 ∧
        (haveEafd → (tableEa haveEafd blob .rfork).off = 0) := by
  have hinit : initTable haveEafd .ea .rfork = ⟨if haveEafd then 0 else adedoffRforkOsx, 0⟩ := by
    cases haveEafd <;> decide
  have hr : Eid.rfork ∉ eaEids := by decide
  rw [finalTable_rfork, finalTable_rfork, h.tableEa_rebuilt, if_neg hr, hinit, AdEntry.mk.injEq]
  cases haveEafd with
  | true => simp only [if_true, true_implies, eq_comm, and_comm]
  | false => simp only [Bool.false_eq_true, if_false, true_and, false_implies, and_true, eq_comm]

/-- The rebuilt EA has the same table when the old one leaves the entries outside the layout as
they were. -/
theorem AcceptedEa.finalTable_rebuilt :
    finalTable haveEafd (relisted haveEafd blob) = finalTable haveEafd blob ↔
      (∀ e, e ∉ eaEids → e ≠ .rfork → tableEa haveEafd blob e = ⟨0, 0⟩) ∧
        (tableEa haveEafd blob .rfork).len = 0 ∧
        (haveEafd → (tableEa haveEafd blob .rfork).off = 0) := by
  rw [← h.rfork_rebuilt]
  constructor
  · intro heq
    refine ⟨fun e he hne => ?_, congrFun heq .rfork⟩
    have := congrFun heq e
    rw [finalTable_of_ne haveEafd hne, finalTable_of_ne haveEafd hne, h.tableEa_rebuilt,
      if_neg he, initTable_ea haveEafd he hne] at this
    exact this.symm
  · rintro ⟨hf, hrfork⟩
    funext e
    by_cases hne : e = .rfork
    · rw [hne, hrfork]
    · rw [finalTable_of_ne haveEafd hne, h.tableEa_rebuilt]
      split_ifs with he
      · rfl
      · rw [finalTable_of_ne haveEafd hne, hf e he hne, initTable_ea haveEafd he hne]

/-- Where the table stays, the bytes of the entries do exactly when the new descriptors do not
change those that an entry covers. -/
theorem AcceptedEa.bytes_rebuilt (a : AdEntry) :
    entryBytes (relisted haveEafd blob) a = entryBytes blob a ↔
      ∀ i, a.off ≤ i → i < a.off + a.len → adHeaderLen ≤ i →
        i < adHeaderLen + adeidNumEa * adEntryLen →
        blob[i]? = (encode (listed (finalTable haveEafd blob) eaEids))[i - adHeaderLen]? := by
  rw [entryBytes, entryBytes, slice_eq_iff]
  refine forall_congr' fun i => forall_congr' fun _ => forall_congr' fun _ => ?_
  rw [h.getElem?_rebuilt]
  constructor
  · intro hi h26 hlt
    rw [if_pos ⟨h26, hlt⟩] at hi
    exact hi.symm
  · intro hi
    split_ifs with hc
    · exact (hi hc.1 hc.2).symm
    · rfl

omit h in
theorem listed_finalTable :
    listed (finalTable haveEafd blob) eaEids = listed (tableEa haveEafd blob) eaEids := by
  refine map_congr_left fun e he => ?_
  rw [finalTable_of_ne haveEafd (ne_rfork_of_mem_eaEids e he)]

/-- A rebuilt EA whose entries are those of the layout is accepted when the table stays. -/
theorem AcceptedEa.rebuilt
    (ht : finalTable haveEafd (relisted haveEafd blob) = finalTable haveEafd blob) :
    AcceptedEa haveEafd (relisted haveEafd blob) where
  size := by rw [length_rewritten h.header_le (le_of_eq h.size.symm), h.size]
  magic := by rw [word_rewritten h.header_le (by decide), h.magic]
  version := by rw [word_rewritten h.header_le (by decide), h.version]
  number := count_rewritten h.header_le (by decide) (by decide)
  ok d hd := by
    rw [h.descs_rebuilt] at hd
    obtain ⟨e, he, rfl⟩ := List.mem_map.mp hd
    exact (h.listed_ok he).1
  entries e he := by
    have hne := ne_rfork_of_mem_eaEids e he
    have := congrFun ht e
    rw [finalTable_of_ne haveEafd hne, finalTable_of_ne haveEafd hne] at this
    rw [EntryOk, this]
    exact h.entries e he

end accepted

/-- A value of the EA that is read and rebuilt is accepted again, with the same table and bytes of
the entries, exactly when it is one of those kept. -/
theorem eaRoundTrip_iff (hread : adHeaderReadEa haveEafd (adInit haveEafd .ea) blob = some ad) :
    EaRoundTrip haveEafd blob ad ↔ Kept haveEafd blob := by
  obtain ⟨h, rfl⟩ := (adHeaderReadEa_eq_some haveEafd).mp hread
  have hlen : (presentEa haveEafd blob).length ≤ 20 := length_present_le _ _
  rw [EaRoundTrip, rebuiltEa_eq haveEafd h]
  constructor
  · rintro ⟨ad', hread', ht, hb⟩
    obtain ⟨h', rfl⟩ := (adHeaderReadEa_eq_some haveEafd).mp hread'
    -- the number of entries is read back, so no foreign entry is among them
    have hn : (presentEa haveEafd blob).length = adeidNumEa := by
      have hr : adHeaderLen ≤ adDataszEa := by decide
      rw [← h'.number, count_rewritten h.header_le hr hlen]
    have hp : presentEa haveEafd blob = eaEids :=
      (h.sublist.eq_of_length (by rw [hn]; rfl)).symm
    rw [hp, openedEa_eid, openedEa_eid] at ht
    rw [hp] at hb
    obtain ⟨hf, hr⟩ := h.finalTable_rebuilt.mp ht
    refine ⟨hf, hr, fun e he => ?_⟩
    have hbe := hb e
    rw [openedEa_eid, openedEa_eid, ht, h.bytes_rebuilt, listed_finalTable] at hbe
    rwa [finalTable_of_ne haveEafd (ne_rfork_of_mem_eaEids e he)] at hbe
  · intro hk
    rw [h.present_of_foreign hk.foreign]
    have ht := h.finalTable_rebuilt.mpr ⟨hk.foreign, hk.rfork⟩
    refine ⟨_, (adHeaderReadEa_eq_some haveEafd).mpr ⟨h.rebuilt ht, rfl⟩, ht, fun e => ?_⟩
    rw [openedEa_eid, openedEa_eid, ht, h.bytes_rebuilt, listed_finalTable]
    intro i hle hlt
    by_cases hne : e = .rfork
    · rw [hne, finalTable_rfork] at hle hlt
      dsimp only at hle hlt
      rw [hk.rfork.1] at hlt
      omega
    · rw [finalTable_of_ne haveEafd hne] at hle hlt
      by_cases he : e ∈ eaEids
      · exact hk.intact e he i hle hlt
      · rw [hk.foreign e he hne] at hle hlt
        dsimp only at hle hlt
        omega

end

/-- A value of the EA with eight descriptors and empty entries behind them. -/
def blobOf (ds : List Descriptor) : List UInt8 :=
  beBytes 4 adMagic ++ beBytes 4 adVersion2 ++ List.replicate 16 0 ++ beBytes 2 adeidNumEa ++
    encode ds ++ List.replicate 280 0

/-- The EA of a new file comes through. -/
theorem eaRoundTrip_layout :
    ∃ ad, adHeaderReadEa false (adInit false .ea) (blobOf (listed (initTable false .ea) eaEids)) =
        some ad ∧
      EaRoundTrip false (blobOf (listed (initTable false .ea) eaEids)) ad := by
  have hread : (adHeaderReadEa false (adInit false .ea)
      (blobOf (listed (initTable false .ea) eaEids))).isSome = true := by decide +kernel
  obtain ⟨ad, had⟩ := Option.isSome_iff_exists.mp hread
  refine ⟨ad, had, (eaRoundTrip_iff false had).mpr ⟨by decide +kernel, by decide +kernel, ?_⟩⟩
  -- the entries lie behind the descriptors
  intro e he i hle _ _ hlt
  have hbehind : ∀ e ∈ eaEids, adHeaderLen + adeidNumEa * adEntryLen ≤
      (tableEa false (blobOf (listed (initTable false .ea) eaEids)) e).off := by decide +kernel
  have := hbehind e he
  omega

/-- An EA that describes four bytes of data fork where the CNID should be. -/
def foreignBlob : List UInt8 :=
  blobOf (listed (initTable false .ea) eaEids.dropLast ++ [⟨eidDisk .dfork, ⟨398, 4⟩⟩])

/-- The foreign EA is accepted, but the one rebuilt from it has nine descriptors and is refused. -/
theorem foreign_not_rebuilt : ∃ ad, adHeaderReadEa false (adInit false .ea) foreignBlob = some ad ∧
      ¬ EaRoundTrip false foreignBlob ad := by
  have hread : (adHeaderReadEa false (adInit false .ea) foreignBlob).isSome = true := by
    decide +kernel
  have hagain : ((adHeaderReadEa false (adInit false .ea) foreignBlob).bind fun ad =>
      adHeaderReadEa false (adInit false .ea) (rebuiltEa ad)).isNone = true := by decide +kernel
  obtain ⟨ad, had⟩ := Option.isSome_iff_exists.mp hread
  refine ⟨ad, had, ?_⟩
  rintro ⟨ad', hread', -⟩
  rw [had, Option.bind_some, hread'] at hagain
  cases hagain

end Netatalk.AppleDouble
