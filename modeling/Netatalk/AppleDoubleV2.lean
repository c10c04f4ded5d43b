import Netatalk.AppleDoubleTable

/-! # Rebuilding the header of a version 2 file

A rebuilt header describes every entry that has an offset, also those that only the layout of
`ad_init` has.  So it can be longer than the one that was read, and it is written over the bytes
behind, up to the resource fork: over entries of the file, or not whole.  `KeptV2` says which files
come through (`v2RoundTrip_iff`). -/

namespace Netatalk.AppleDouble

open List Bytes

/-- The bytes of a file that are read. -/
def headerLen (file : List UInt8) : ℕ := min adDatasz2 file.length

/-- What the last descriptors of a file and the layout say about the entries. -/
def tableV2 (file : List UInt8) : Table := describe (fillTable entryOrder2) (descs file)

/-- The offset of the resource fork. -/
def rforkOff (file : List UInt8) : ℕ := (tableV2 file .rfork).off

/-- The files that `ad_header_read` accepts. -/
structure AcceptedV2 (file : List UInt8) : Prop where
  size : adHeaderLen ≤ headerLen file
  magic : word 4 file 0 = adMagic
  version : word 4 file adedoffVersion = adVersion2
  few : count file ≤ 16
  room : count file * adEntryLen + adHeaderLen ≤ headerLen file
  ok : ∀ d ∈ descs file, d.Ok (headerLen file)
  rfork : rforkOff file ≠ 0
  rforkInside : rforkOff file ≤ headerLen file

section
variable (haveEafd : Bool) {file : List UInt8} {ad : Adouble}

/-- The adouble after `ad_header_read`. -/
def openedV2 (file : List UInt8) : Adouble :=
  { adInit haveEafd .v2 with
    eid := tableV2 file
    validDataLen := headerLen file
    data := splice (List.replicate adDataszMax 0) 0 (file.take adDatasz2)
    rlen := file.length - rforkOff file }

theorem openedV2_eid : (openedV2 haveEafd file).eid = tableV2 file := rfl

/-! ### Reading -/

omit haveEafd in
theorem word_bufferV2 {n off : ℕ} (h : off + n ≤ headerLen file) :
    word n (splice (List.replicate adDataszMax 0) 0 (file.take adDatasz2)) off =
      word n file off := by
  have htake : off + n ≤ (file.take adDatasz2).length := by
    rwa [length_take]
  rw [splice_zero, word_append _ htake]
  conv_rhs => rw [← take_append_drop adDatasz2 file]
  rw [word_append _ htake]

omit haveEafd in
theorem descriptors_bufferV2 (h : count file * adEntryLen + adHeaderLen ≤ headerLen file) :
    descriptors (count file)
        ((splice (List.replicate adDataszMax 0) 0 (file.take adDatasz2)).drop adHeaderLen) =
      descs file := by
  have htake : count file * adEntryLen + adHeaderLen ≤ (file.take adDatasz2).length := by
    rwa [length_take]
  have hdrop : count file * adEntryLen ≤ ((file.take adDatasz2).drop adHeaderLen).length := by
    rw [length_drop]
    omega
  have hfile : file.drop adHeaderLen =
      (file.take adDatasz2).drop adHeaderLen ++ file.drop adDatasz2 := by
    rw [← drop_append_of_le_length (by omega), take_append_drop]
  rw [descs, splice_zero, drop_append_of_le_length (by omega), descriptors_append _ hdrop,
    hfile, descriptors_append _ hdrop]

/-- The adouble after the entries are parsed. -/
def parsedV2 (file : List UInt8) : Adouble := { openedV2 haveEafd file with rlen := 0 }

theorem parse_bufferV2 (hm : word 4 file 0 = adMagic) (hv : word 4 file adedoffVersion = adVersion2)
    (hroom : count file * adEntryLen + adHeaderLen ≤ headerLen file) :
    parseEntries { adInit haveEafd .v2 with
        data := splice (adInit haveEafd .v2).data 0 (file.take adDatasz2)
        magic := word 4 file 0
        version := word 4 file adedoffVersion } (count file) (headerLen file) = some ad ↔
      (∀ d ∈ descs file, d.Ok (headerLen file)) ∧ ad = parsedV2 haveEafd file := by
  rw [parseEntries_eq_some, hm, hv]
  simp only [adInit, descriptors_bufferV2 hroom]
  rfl

theorem adHeaderRead_eq_some : adHeaderRead haveEafd (adInit haveEafd .v2) file = some ad ↔
      AcceptedV2 file ∧ ad = openedV2 haveEafd file := by
  by_cases hsize : adHeaderLen ≤ headerLen file
  swap
  · have hlt : min adDatasz2 file.length < adHeaderLen := lt_of_not_ge hsize
    simp only [adHeaderRead, if_pos hlt, reduceCtorEq, false_iff, not_and]
    exact fun h => absurd h.size hsize
  have h₀ : word 4 (splice (adInit haveEafd .v2).data 0 (file.take adDatasz2)) 0 = word 4 file 0 :=
    word_bufferV2 (le_trans (by decide) hsize)
  have h₄ : word 4 (splice (adInit haveEafd .v2).data 0 (file.take adDatasz2)) adedoffVersion =
      word 4 file adedoffVersion := word_bufferV2 (le_trans (by decide) hsize)
  have h₂ : word 2 (splice (adInit haveEafd .v2).data 0 (file.take adDatasz2)) adedoffNentries =
      count file := word_bufferV2 hsize
  have hoff : adGetentryoff haveEafd (parsedV2 haveEafd file) .rfork = rforkOff file := rfl
  have hmin : min adDatasz2 file.length = headerLen file := rfl
  simp only [adHeaderRead, h₀, h₄, h₂, hmin, if_neg hsize.not_gt, Option.ite_none_left_eq_some,
    not_or, not_not, not_lt]
  constructor
  · rintro ⟨⟨hm, hv⟩, hfew, hroom, h⟩
    split at h
    · cases h
    case _ ad' hparse =>
      obtain ⟨hok, rfl⟩ := (parse_bufferV2 haveEafd hm hv hroom).mp hparse
      simp only [Option.ite_none_left_eq_some, not_or, not_lt] at h
      obtain ⟨⟨hrfork, _⟩, hinside, ⟨⟩⟩ := h
      exact ⟨⟨hsize, hm, hv, hfew, hroom, hok, hrfork, hinside⟩, rfl⟩
  · rintro ⟨hacc, rfl⟩
    have hmax : headerLen file ≤ adDataszMax := (min_le_left _ _).trans (by decide)
    refine ⟨⟨hacc.magic, hacc.version⟩, hacc.few, hacc.room, ?_⟩
    rw [(parse_bufferV2 haveEafd hacc.magic hacc.version hacc.room).mpr ⟨hacc.ok, rfl⟩]
    simp only [hoff, Option.ite_none_left_eq_some, not_or, not_lt]
    exact ⟨⟨hacc.rfork, hacc.rforkInside.trans hmax⟩, hacc.rforkInside, rfl⟩

/-! ### Rebuilding -/

/-- The entries that a rebuilt header describes. -/
def presentV2 (file : List UInt8) : List Eid := present (fun _ => false) (tableV2 file)

/-- The length of a rebuilt header. -/
def rebuiltLen (file : List UInt8) : ℕ := adHeaderLen + (presentV2 file).length * adEntryLen

/-- A file after the header that `ad_rebuild_adouble_header_v2` rebuilds is written to it. -/
def writtenV2 (file : List UInt8) (ad : Adouble) : List UInt8 :=
  (adRebuildAdoubleHeaderV2 haveEafd ad).2.data.take (adRebuildAdoubleHeaderV2 haveEafd ad).1 ++
    file.drop (adRebuildAdoubleHeaderV2 haveEafd ad).1

/-- The file is accepted again, with the same table and the same bytes of each of its entries. -/
def V2RoundTrip (file : List UInt8) (ad : Adouble) : Prop :=
  ∃ ad', adHeaderRead haveEafd (adInit haveEafd .v2) (writtenV2 haveEafd file ad) = some ad' ∧
    ad'.eid = ad.eid ∧ ∀ d ∈ descs file,
      entryBytes (writtenV2 haveEafd file ad) (ad'.eid (getEid d.id)) =
        entryBytes file (ad.eid (getEid d.id))

theorem writtenV2_eq (h : AcceptedV2 file) : writtenV2 haveEafd file (openedV2 haveEafd file) =
      rewritten (tableV2 file) (presentV2 file) (rforkOff file) file := by
  have htake : ∀ r ≤ headerLen file, (openedV2 haveEafd file).data.take r = file.take r := by
    intro r hr
    have hbuf : (openedV2 haveEafd file).data =
        file.take adDatasz2 ++ (replicate adDataszMax 0).drop (file.take adDatasz2).length :=
      splice_zero
    have hr' : r ≤ (file.take adDatasz2).length := by rwa [length_take]
    have hr'' : r ≤ adDatasz2 := hr.trans (min_le_left _ _)
    rw [hbuf, take_append_of_le_length hr', take_take, min_eq_left hr'']
  have hlen : (openedV2 haveEafd file).data.length = adDataszMax := by
    have hle : (file.take adDatasz2).length ≤ adDatasz2 := length_take_le _ _
    rw [openedV2, length_splice, length_replicate]
    rw [length_replicate, zero_add]
    exact hle.trans (by decide)
  have hfile : headerLen file ≤ file.length := min_le_right _ _
  exact writeBack_eq (fun _ => false) hlen
    ((word_bufferV2 (le_trans (by decide) h.size)).trans h.magic)
    ((word_bufferV2 (le_trans (by decide) h.size)).trans h.version)
    (htake _ h.rforkInside) (htake _ (le_trans (by decide) h.size))
    (h.rforkInside.trans hfile) (h.size.trans hfile)

/-! ### Round trips -/

/-- Where an entry of the file reaches into the header that is written over it, it has the bytes
of the new number of entries and the new descriptors. -/
def Intact (file : List UInt8) : Prop :=
  ∀ d ∈ descs file, ∀ i, (tableV2 file (getEid d.id)).off ≤ i →
    i < (tableV2 file (getEid d.id)).off + (tableV2 file (getEid d.id)).len →
    adedoffNentries ≤ i → i < min (rforkOff file) (rebuiltLen file) →
    file[i]? = (beBytes 2 (presentV2 file).length ++
      encode (listed (tableV2 file) (presentV2 file)))[i - adedoffNentries]?

/-- A file whose rebuilt header ends in front of the resource fork comes through: an entry without
an offset has the values of the layout, at most 16 entries have one, these lie inside the bytes
that are read, and the entries of the file stay intact. -/
structure Whole (file : List UInt8) : Prop where
  absent : ∀ e, (tableV2 file e).off = 0 → tableV2 file e = fillTable entryOrder2 e
  few : (presentV2 file).length ≤ 16
  inside : ∀ e, (tableV2 file e).off ≠ 0 → e ≠ .rfork →
    (tableV2 file e).off ≤ headerLen file ∧
      (tableV2 file e).len ≤ headerLen file - (tableV2 file e).off
  intact : Intact file

/-- The descriptors in a file whose rebuilt header reaches the resource fork: the new bytes in
front of it, and the old ones from there on. -/
def mixedDescs (file : List UInt8) : List Descriptor :=
  descriptors (presentV2 file).length
    ((encode (listed (tableV2 file) (presentV2 file))).take (rforkOff file - adHeaderLen) ++
      file.drop (rforkOff file))

/-- A file whose rebuilt header is cut off at the resource fork comes through: the number of
entries fits, and the mixed descriptors are in order and say the same. -/
structure Cut (file : List UInt8) : Prop where
  few : (presentV2 file).length ≤ 16
  room : rebuiltLen file ≤ headerLen file
  ok : ∀ d ∈ mixedDescs file, d.Ok (headerLen file)
  same : describe (fillTable entryOrder2) (mixedDescs file) = tableV2 file
  intact : Intact file

/-- The files that come through; a header that is cut off in front of its first descriptor does
not change the file. -/
def KeptV2 (file : List UInt8) : Prop :=
  if rebuiltLen file ≤ rforkOff file then Whole file
  else rforkOff file < adHeaderLen ∨ Cut file

/-- The file after the header is written. -/
def newFile (file : List UInt8) : List UInt8 :=
  rewritten (tableV2 file) (presentV2 file) (rforkOff file) file

section accepted
variable (h : AcceptedV2 file)
include h

theorem AcceptedV2.header_le : adHeaderLen ≤ file.length :=
  h.size.trans (min_le_right _ _)

theorem AcceptedV2.length_newFile : (newFile file).length = file.length :=
  length_rewritten h.header_le (h.rforkInside.trans (min_le_right _ _))

theorem AcceptedV2.headerLen_newFile : headerLen (newFile file) = headerLen file := by
  rw [headerLen, h.length_newFile, headerLen]

omit h in
theorem length_presentV2_le : (presentV2 file).length ≤ 20 :=
  length_present_le _ _

theorem AcceptedV2.zero : tableV2 file 0 = ⟨0, 0⟩ := by
  refine describe_rec (P := fun a => a = ⟨0, 0⟩) (by decide) fun d hd hid => ?_
  exact absurd hid (h.ok d hd).1

omit h in
theorem tableV2_small (e : Eid) :
    (tableV2 file e).off < 2 ^ 32 ∧ (tableV2 file e).len < 2 ^ 32 := by
  have hinit : ∀ e, (fillTable entryOrder2 e).off < 2 ^ 32 ∧
      (fillTable entryOrder2 e).len < 2 ^ 32 := by decide
  exact describe_rec (P := fun a => a.off < 2 ^ 32 ∧ a.len < 2 ^ 32) (hinit e) fun d hd _ =>
    (descriptors_small _ d hd).2

/-- A header that is cut off in front of its first descriptor: the first byte of the number of
entries is zero before and after. -/
theorem AcceptedV2.newFile_of_lt (hr : rforkOff file < adHeaderLen) : newFile file = file := by
  have hzero : ∀ n ≤ 20, (beBytes 2 n)[0]? = some 0 := by decide
  apply ext_getElem?
  intro i
  rw [newFile, getElem?_rewritten h.header_le]
  split_ifs with hi
  · by_cases h24 : i < adedoffNentries
    · exact getElem?_header_of_lt h.header_le h24
    · have hi' : i = adedoffNentries := by
        simp only [adHeaderLen, adedoffNentries] at hr h24 ⊢
        omega
      have hcount : (beBytes 2 (count file))[0]? = file[adedoffNentries]? := by
        rw [count, beBytes_word h.header_le, getElem?_take, getElem?_drop]
        rfl
      rw [hi', getElem?_header_count h.header_le le_rfl (by decide), Nat.sub_self,
        hzero _ length_presentV2_le, ← hcount, hzero _ (h.few.trans (by decide))]
  · rfl

/-- An entry keeps its bytes when those of the new header that it covers are the old ones. -/
theorem AcceptedV2.bytes_newFile (a : AdEntry) : entryBytes (newFile file) a = entryBytes file a ↔
      ∀ i, a.off ≤ i → i < a.off + a.len → adedoffNentries ≤ i →
        i < min (rforkOff file) (rebuiltLen file) →
        file[i]? = (beBytes 2 (presentV2 file).length ++
          encode (listed (tableV2 file) (presentV2 file)))[i - adedoffNentries]? := by
  rw [entryBytes, entryBytes, slice_eq_iff]
  refine forall_congr' fun i => forall_congr' fun _ => forall_congr' fun _ => ?_
  rw [newFile, getElem?_rewritten h.header_le, ← rebuiltLen]
  constructor
  · intro hi h24 hlt
    rw [if_pos hlt, getElem?_header_of_le h.header_le h24] at hi
    exact hi.symm
  · intro hi
    split_ifs with hlt
    · by_cases h24 : i < adedoffNentries
      · exact getElem?_header_of_lt h.header_le h24
      · rw [getElem?_header_of_le h.header_le (le_of_not_gt h24)]
        exact (hi (le_of_not_gt h24) hlt).symm
    · rfl

section written
variable (hr : adHeaderLen ≤ rforkOff file)
include hr

theorem AcceptedV2.count_newFile : count (newFile file) = (presentV2 file).length :=
  count_rewritten h.header_le hr length_presentV2_le

/-- What the new file has to satisfy. -/
theorem AcceptedV2.roundTrip_iff : V2RoundTrip haveEafd file (openedV2 haveEafd file) ↔
    (presentV2 file).length ≤ 16 ∧ rebuiltLen file ≤ headerLen file ∧
      (∀ d ∈ descs (newFile file), d.Ok (headerLen file)) ∧
      tableV2 (newFile file) = tableV2 file ∧ Intact file := by
  have hlen : rebuiltLen file = count (newFile file) * adEntryLen + adHeaderLen := by
    rw [rebuiltLen, h.count_newFile hr, add_comm]
  rw [V2RoundTrip, writtenV2_eq haveEafd h, ← newFile]
  constructor
  · rintro ⟨ad', hread, ht, hb⟩
    obtain ⟨h', rfl⟩ := (adHeaderRead_eq_some haveEafd).mp hread
    rw [openedV2_eid, openedV2_eid] at ht
    refine ⟨?_, ?_, ?_, ht, fun d hd => ?_⟩
    · rw [← h.count_newFile hr]
      exact h'.few
    · rw [hlen, ← h.headerLen_newFile]
      exact h'.room
    · rw [← h.headerLen_newFile]
      exact h'.ok
    · have := hb d hd
      rwa [openedV2_eid, openedV2_eid, ht, h.bytes_newFile] at this
  · rintro ⟨hfew, hroom, hok, ht, hintact⟩
    have hrfork : rforkOff (newFile file) = rforkOff file := by rw [rforkOff, ht, rforkOff]
    have h' : AcceptedV2 (newFile file) := by
      refine ⟨?_, ?_, ?_, ?_, ?_, ?_, ?_, ?_⟩
      · rw [h.headerLen_newFile]
        exact h.size
      · rw [newFile, word_rewritten h.header_le (by decide), h.magic]
      · rw [newFile, word_rewritten h.header_le (by decide), h.version]
      · rwa [h.count_newFile hr]
      · rwa [← hlen, h.headerLen_newFile]
      · rwa [h.headerLen_newFile]
      · rw [hrfork]
        exact h.rfork
      · rw [hrfork, h.headerLen_newFile]
        exact h.rforkInside
    refine ⟨_, (adHeaderRead_eq_some haveEafd).mpr ⟨h', rfl⟩, ht, fun d hd => ?_⟩
    rw [openedV2_eid, openedV2_eid, ht, h.bytes_newFile]
    exact hintact d hd

theorem AcceptedV2.descs_newFile_of_le (hle : rebuiltLen file ≤ rforkOff file) :
    descs (newFile file) = listed (tableV2 file) (presentV2 file) := by
  refine descs_rewritten_of_le h.header_le hr length_presentV2_le hle fun d hd => ?_
  obtain ⟨e, -, rfl⟩ := List.mem_map.mp hd
  exact ⟨eidDisk_lt, tableV2_small e⟩

theorem AcceptedV2.descs_newFile_of_lt (hlt : rforkOff file < rebuiltLen file) :
    descs (newFile file) = mixedDescs file := by
  have hmin : min (rforkOff file) (rebuiltLen file) = rforkOff file := min_eq_left (by omega)
  rw [newFile, descs_rewritten h.header_le hr length_presentV2_le, ← rebuiltLen, hmin,
    mixedDescs]

end written

omit h in
theorem mem_presentV2 {e : Eid} : e ∈ presentV2 file ↔ (tableV2 file e).off ≠ 0 := by
  simp [presentV2, present]

/-- The descriptors that are written are in order when their entries lie inside the bytes read. -/
theorem AcceptedV2.listed_ok :
    (∀ d ∈ listed (tableV2 file) (presentV2 file), d.Ok (headerLen file)) ↔
      ∀ e, (tableV2 file e).off ≠ 0 → e ≠ .rfork →
        (tableV2 file e).off ≤ headerLen file ∧
          (tableV2 file e).len ≤ headerLen file - (tableV2 file e).off := by
  have hok : ∀ e, Descriptor.Ok (headerLen file) ⟨eidDisk e, tableV2 file e⟩ ↔ e ≠ 0 ∧
      (e ≠ .rfork → (tableV2 file e).off ≤ headerLen file ∧
        (tableV2 file e).len ≤ headerLen file - (tableV2 file e).off) := by
    intro e
    rw [Descriptor.Ok, getEid_eidDisk]
  simp only [listed, List.forall_mem_map, mem_presentV2, hok]
  constructor
  · intro hall e he
    exact (hall e he).2
  · intro hall e he
    refine ⟨?_, hall e he⟩
    rintro rfl
    exact he (by rw [h.zero])

omit h in
/-- The written descriptors give back the table when an entry without offset is as in the layout. -/
theorem describe_listed_eq :
    describe (fillTable entryOrder2) (listed (tableV2 file) (presentV2 file)) = tableV2 file ↔
      ∀ e, (tableV2 file e).off = 0 → tableV2 file e = fillTable entryOrder2 e := by
  rw [funext_iff]
  refine forall_congr' fun e => ?_
  rw [describe_listed]
  by_cases he : (tableV2 file e).off = 0
  · simp [mem_presentV2, eq_comm]
  · simp [mem_presentV2, he]

end accepted

/-- A file that is read and written back is accepted again, with the same table and bytes of its
entries, exactly when it is one of those kept. -/
theorem v2RoundTrip_iff (hread : adHeaderRead haveEafd (adInit haveEafd .v2) file = some ad) :
    V2RoundTrip haveEafd file ad ↔ KeptV2 file := by
  obtain ⟨h, rfl⟩ := (adHeaderRead_eq_some haveEafd).mp hread
  have hlen : adHeaderLen ≤ rebuiltLen file := Nat.le_add_right _ _
  rw [KeptV2]
  split_ifs with hle
  · have hr : adHeaderLen ≤ rforkOff file := hlen.trans hle
    rw [h.roundTrip_iff haveEafd hr, tableV2, h.descs_newFile_of_le hr hle, h.listed_ok,
      describe_listed_eq]
    constructor
    · rintro ⟨hfew, -, hinside, habsent, hintact⟩
      exact ⟨habsent, hfew, hinside, hintact⟩
    · rintro ⟨habsent, hfew, hinside, hintact⟩
      exact ⟨hfew, hle.trans h.rforkInside, hinside, habsent, hintact⟩
  · rcases lt_or_ge (rforkOff file) adHeaderLen with hr | hr
    · -- nothing changes
      have hsame : writtenV2 haveEafd file (openedV2 haveEafd file) = file := by
        rw [writtenV2_eq haveEafd h]
        exact h.newFile_of_lt hr
      refine iff_of_true ?_ (.inl hr)
      rw [V2RoundTrip, hsame]
      exact ⟨_, hread, rfl, fun _ _ => rfl⟩
    · rw [h.roundTrip_iff haveEafd hr, tableV2, h.descs_newFile_of_lt hr (by omega),
        or_iff_right hr.not_gt]
      constructor
      · rintro ⟨hfew, hroom, hok, hsame, hintact⟩
        exact ⟨hfew, hroom, hok, hsame, hintact⟩
      · rintro ⟨hfew, hroom, hok, hsame, hintact⟩
        exact ⟨hfew, hroom, hok, hsame, hintact⟩

end

/-- A file with some descriptors and a number of zero bytes behind them. -/
def fileOf (ds : List Descriptor) (n : ℕ) : List UInt8 :=
  beBytes 4 adMagic ++ beBytes 4 adVersion2 ++ List.replicate 16 0 ++ beBytes 2 ds.length ++
    encode ds ++ List.replicate n 0

/-- The header of a new file. -/
def layoutFile : List UInt8 :=
  fileOf (listed (fillTable entryOrder2) (present (fun _ => false) (fillTable entryOrder2))) 559

/-- The header of a new file comes through. -/
theorem v2RoundTrip_layout : ∃ ad, adHeaderRead false (adInit false .v2) layoutFile = some ad ∧
      V2RoundTrip false layoutFile ad := by
  have hread : (adHeaderRead false (adInit false .v2) layoutFile).isSome = true := by
    decide +kernel
  obtain ⟨ad, had⟩ := Option.isSome_iff_exists.mp hread
  have hbehind : ∀ d ∈ descs layoutFile, rebuiltLen layoutFile ≤
      (tableV2 layoutFile (getEid d.id)).off := by decide +kernel
  refine ⟨ad, had, (v2RoundTrip_iff false had).mpr ?_⟩
  refine ⟨by decide +kernel, by decide +kernel, by decide +kernel, ?_⟩
  -- the entries lie behind the descriptors
  intro d hd i hoff _ _ hlt
  have := hbehind d hd
  omega

/-- A file with Finder info and an empty resource fork behind two descriptors. -/
def twoEntries : List UInt8 :=
  fileOf [⟨eidDisk .finderi, ⟨50, 32⟩⟩, ⟨eidDisk .rfork, ⟨82, 0⟩⟩] 32

/-- The file with two entries is accepted, but the header written back counts thirteen and is
refused. -/
theorem twoEntries_not_rebuilt : ∃ ad, adHeaderRead false (adInit false .v2) twoEntries = some ad ∧
      ¬ V2RoundTrip false twoEntries ad := by
  have hread : (adHeaderRead false (adInit false .v2) twoEntries).isSome = true := by
    decide +kernel
  have hagain : ((adHeaderRead false (adInit false .v2) twoEntries).bind fun ad =>
      adHeaderRead false (adInit false .v2) (writtenV2 false twoEntries ad)).isNone = true := by
    decide +kernel
  obtain ⟨ad, had⟩ := Option.isSome_iff_exists.mp hread
  refine ⟨ad, had, ?_⟩
  rintro ⟨ad', hread', -⟩
  rw [had, Option.bind_some, hread'] at hagain
  cases hagain

/-! ### The fields of the entries -/

/-- The adoubles that reads leave: a new one, one whose header was accepted, and one with the
entries in front of a refused one. -/
inductive Loaded (haveEafd : Bool) : Adouble → Prop where
  | init (vers : Vers) : Loaded haveEafd (adInit haveEafd vers)
  | read {ad ad' : Adouble} {file : List UInt8} (h : Loaded haveEafd ad)
      (hr : adHeaderRead haveEafd ad file = some ad') : Loaded haveEafd ad'
  | readEa {ad ad' : Adouble} {blob : List UInt8} (h : Loaded haveEafd ad)
      (hr : adHeaderReadEa haveEafd ad blob = some ad') : Loaded haveEafd ad'
  | refused {ad : Adouble} {data : List UInt8} {magic version v : ℕ} {ds : List Descriptor}
      {t : Table} (h : Loaded haveEafd ad) (hv : v ≤ adDatasz2)
      (hr : ds.foldlM (parseEntry v) ad.eid = some t) :
      Loaded haveEafd { ad with data, magic, version, eid := t }

section
variable {haveEafd : Bool} {ad : Adouble} {e : Eid} {n p v : ℕ}

/-- The offsets lie in what is read of a header. -/
def Table.Near (t : Table) : Prop := ∀ e ≠ Eid.rfork, (t e).off ≤ adDatasz2

theorem Table.Near.parsed {t t' : Table} {ds : List Descriptor} (h : t.Near) (hv : v ≤ adDatasz2)
    (hp : ds.foldlM (parseEntry v) t = some t') : t'.Near := by
  obtain ⟨hok, rfl⟩ := foldlM_parseEntry.mp hp
  intro e he
  refine describe_rec (P := (·.off ≤ adDatasz2)) (h e he) ?_
  rintro d hd rfl
  exact ((hok d hd).2 he).1.trans hv

theorem Loaded.near (h : Loaded haveEafd ad) : ad.eid.Near := by
  induction h with
  | init vers =>
    unfold Table.Near
    cases haveEafd <;> cases vers <;> decide
  | refused h hv hr ih => exact ih.parsed hv hr
  | read h hr ih =>
    revert hr
    fun_cases adHeaderRead with
    | case8 _ _ _ _ _ _ _ _ _ ad hp =>
      rintro ⟨⟩
      obtain ⟨t, ht, ⟨⟩⟩ := Option.bind_eq_some_iff.mp hp
      exact ih.parsed (min_le_left _ _) ht
    | _ => simp
  | @readEa ad ad' blob h hr ih =>
    have hle : blob.length ≤ adDataszEa → blob.length ≤ adDatasz2 := fun h => h.trans (by decide)
    revert hr
    fun_cases adHeaderReadEa with
    | case6 _ _ _ _ hlen _ _ ad hp =>
      rintro ⟨⟩ e he
      obtain ⟨t, ht, ⟨⟩⟩ := Option.bind_eq_some_iff.mp hp
      dsimp only [Table.setOff]
      rw [Function.update_of_ne he]
      exact ih.parsed (hle (not_lt.mp (not_or.mp hlen).1)) ht e he
    | case7 _ _ _ _ hlen _ _ ad hp =>
      rintro ⟨⟩
      obtain ⟨t, ht, ⟨⟩⟩ := Option.bind_eq_some_iff.mp hp
      exact ih.parsed (hle (not_lt.mp (not_or.mp hlen).1)) ht
    | _ => simp

/-- Wherever `ad_entry` points, the whole field of the entry lies in `ad_data`; only the color icon
is as long as the buffer. -/
theorem adEntry_field_inside (h : Loaded haveEafd ad) (he : e ≠ .iconcol)
    (hp : adEntry haveEafd ad e = some p) (hn : (adChecks e).expectedLen = n) :
    p + n ≤ adDataszMax := by
  have hlen : ∀ e ≠ Eid.iconcol, (adChecks e).expectedLen ≤ 255 := by decide
  have hfork : e ≠ .rfork := by
    rintro rfl
    cases hn
  have hoff : p ≤ (ad.eid e).off := by
    unfold adEntry at hp
    split_ifs at hp
    cases hp
    fun_cases adGetentryoff with
    | case2 => exact zero_le
    | _ => exact le_rfl
  have hnear := hoff.trans (h.near e hfork)
  have hfield := hlen e he
  unfold adDatasz2 at hnear
  unfold adDataszMax
  omega

end

/-- The Finder info of a new file, read from its header. -/
theorem finderi_field_inside : ∃ ad, adHeaderRead false (adInit false .v2) layoutFile = some ad ∧
      adEntry false ad .finderi = some 653 ∧ 653 + 32 ≤ adDataszMax := by
  have hread : ((adHeaderRead false (adInit false .v2) layoutFile).bind
      fun ad => adEntry false ad .finderi) = some 653 := by
    decide +kernel
  obtain ⟨ad, had, he⟩ := Option.bind_eq_some_iff.mp hread
  exact ⟨ad, had, he, adEntry_field_inside (.read (.init .v2) had) (by decide) he (by rfl)⟩

end Netatalk.AppleDouble
