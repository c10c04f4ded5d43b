import Netatalk.AppleDouble

/-! # Entry tables and descriptors

What the loops over the descriptors do.  Reading overlays the table with the descriptors, of which
the last of each id counts (`describe`), and fails when one of them is not in order.  Rebuilding
writes the descriptors of the entries that have an offset (`listed`) side by side.  So the bytes
that a rebuilt header puts in front of the old ones are `header`. -/

namespace Netatalk.AppleDouble

open List Option Bytes Function
open Descriptor (bytes)

/-! ### Reading -/

/-- The table with the values of the last descriptor of each id. -/
def describe (t : Table) (ds : List Descriptor) : Table :=
  ds.foldl (fun t d => update t (getEid d.id) d.entry) t

variable {a buf : List UInt8} {ad : Adouble} {ds : List Descriptor} {e : Eid} {i n off v : ℕ}
  {t' : Table}

variable {t : Table}

theorem parseEntry_eq_some {d : Descriptor} :
    parseEntry v t d = some t' ↔ d.Ok v ∧ t' = update t (getEid d.id) d.entry := by
  simp only [parseEntry]
  split_ifs with h
  · simp only [false_iff, not_and]
    rintro ⟨h0, hr⟩
    rcases h with h | ⟨hne, h⟩
    · exact absurd h h0
    · have := hr hne
      omega
  · rw [not_or, not_and_or, not_not] at h
    rw [some.injEq, eq_comm, iff_and_self]
    intro
    refine ⟨h.1, fun hne => ?_⟩
    have := h.2.resolve_left hne
    omega

/-- The whole loop: every descriptor has to be in order. -/
theorem foldlM_parseEntry :
    ds.foldlM (parseEntry v) t = some t' ↔ (∀ d ∈ ds, d.Ok v) ∧ t' = describe t ds := by
  induction ds generalizing t with
  | nil => simp [describe, eq_comm]
  | cons d ds ih =>
    rw [foldlM_cons, bind_eq_bind, bind_eq_some_iff]
    simp only [parseEntry_eq_some, ih, forall_mem_cons]
    constructor
    · rintro ⟨t₁, ⟨hd, rfl⟩, hds, rfl⟩
      exact ⟨⟨hd, hds⟩, rfl⟩
    · rintro ⟨⟨hd, hds⟩, rfl⟩
      exact ⟨_, ⟨hd, rfl⟩, hds, rfl⟩

/-- An id has the values of the layout or of one of its descriptors. -/
theorem describe_rec {P : AdEntry → Prop} (ht : P (t e))
    (hds : ∀ d ∈ ds, getEid d.id = e → P d.entry) : P (describe t ds e) := by
  induction ds generalizing t with
  | nil => exact ht
  | cons d ds ih =>
    have ht' : P (update t (getEid d.id) d.entry e) := by
      by_cases he : e = getEid d.id
      · subst he
        rw [update_self]
        exact hds d (by simp) rfl
      · rwa [update_of_ne he]
    exact ih ht' fun d' hd' => hds d' (by simp [hd'])

theorem word_lt : word 4 buf off < 2 ^ 32 :=
  (beNat_lt (length_take_le 4 _)).trans_eq (by decide)

theorem word_append (b : List UInt8) (h : off + n ≤ a.length) :
    word n (a ++ b) off = word n a off := by
  rw [word, word, drop_append_of_le_length (by omega), take_append_of_le_length]
  rw [length_drop]
  omega

/-- A descriptor with the 32-bit numbers of the disk. -/
def Descriptor.Small (d : Descriptor) : Prop :=
  d.id < 2 ^ 32 ∧ d.entry.off < 2 ^ 32 ∧ d.entry.len < 2 ^ 32

theorem descriptors_small (buf : List UInt8) : ∀ d ∈ descriptors n buf, d.Small := by
  induction n generalizing buf with
  | zero => simp [descriptors]
  | succ n ih =>
    rw [descriptors, forall_mem_cons]
    exact ⟨⟨word_lt, word_lt, word_lt⟩, ih _⟩

theorem descriptors_append (b : List UInt8)
    (h : n * adEntryLen ≤ a.length) : descriptors n (a ++ b) = descriptors n a := by
  induction n generalizing a with
  | zero => rfl
  | succ n ih =>
    simp only [adEntryLen] at h
    have hdrop : (a ++ b).drop adEntryLen = a.drop adEntryLen ++ b :=
      drop_append_of_le_length (by simp only [adEntryLen]; omega)
    rw [descriptors, descriptors, hdrop, ih]
    · rw [word_append b (by omega), word_append b (by omega), word_append b (by omega)]
    · rw [length_drop]
      simp only [adEntryLen]
      omega

/-- The number of entries in the bytes of a header. -/
def count (bs : List UInt8) : ℕ := word 2 bs adedoffNentries

/-- The descriptors in the bytes of a header. -/
def descs (bs : List UInt8) : List Descriptor := descriptors (count bs) (bs.drop adHeaderLen)

theorem parseEntries_eq_some {ad' : Adouble} :
    parseEntries ad n v = some ad' ↔ (∀ d ∈ descriptors n (ad.data.drop adHeaderLen), d.Ok v) ∧
      ad' = { ad with
        eid := describe ad.eid (descriptors n (ad.data.drop adHeaderLen)), validDataLen := v } := by
  simp only [parseEntries, bind_eq_bind, bind_eq_some_iff, foldlM_parseEntry,
    Option.pure_def, some.injEq]
  constructor
  · rintro ⟨t, ⟨hok, rfl⟩, rfl⟩
    exact ⟨hok, rfl⟩
  · rintro ⟨hok, rfl⟩
    exact ⟨_, ⟨hok, rfl⟩, rfl⟩

/-- The bytes of an entry. -/
def entryBytes (bs : List UInt8) (a : AdEntry) : List UInt8 := (bs.drop a.off).take a.len

/-! ### Writing -/

/-- The bytes of descriptors side by side. -/
def encode (ds : List Descriptor) : List UInt8 := ds.flatMap bytes

@[simp] theorem length_bytes (d : Descriptor) : d.bytes.length = adEntryLen := by
  simp [bytes, adEntryLen]

@[simp] theorem length_encode : (encode ds).length = ds.length * adEntryLen := by
  induction ds with
  | nil => rfl
  | cons d ds ih =>
    rw [encode, flatMap_cons, length_append, length_bytes, ← encode, ih,
      length_cons, Nat.succ_mul, add_comm]

theorem word_segment (a bs c : List UInt8) :
    word bs.length (a ++ (bs ++ c)) a.length = beNat bs := by
  rw [word, drop_left, take_left]

theorem word_beBytes (h : v < 256 ^ n) (a c : List UInt8)
    (ha : a.length = off) : word n (a ++ (beBytes n v ++ c)) off = v := by
  have := word_segment a (beBytes n v) c
  rwa [length_beBytes, ha, beNat_beBytes_of_lt h] at this

theorem descriptors_encode (h : ∀ d ∈ ds, d.Small) (rest : List UInt8) :
    descriptors ds.length (encode ds ++ rest) = ds := by
  induction ds with
  | nil => rfl
  | cons d ds ih =>
    obtain ⟨hid, hoff, hlen⟩ := h d (by simp)
    have hpow : (2 : ℕ) ^ 32 = 256 ^ 4 := by decide
    rw [hpow] at hid hoff hlen
    have hbuf : encode (d :: ds) ++ rest = d.bytes ++ (encode ds ++ rest) := by
      rw [encode, flatMap_cons, append_assoc, ← encode]
    have hdrop : (d.bytes ++ (encode ds ++ rest)).drop adEntryLen = encode ds ++ rest :=
      drop_left' (length_bytes d)
    rw [length_cons, descriptors, hbuf, hdrop, ih fun x hx => h x (by simp [hx])]
    simp only [bytes, append_assoc]
    have h₀ := word_beBytes hid []
      (beBytes 4 d.entry.off ++ (beBytes 4 d.entry.len ++ (encode ds ++ rest))) rfl
    have h₄ := word_beBytes hoff (beBytes 4 d.id)
      (beBytes 4 d.entry.len ++ (encode ds ++ rest)) (length_beBytes _ _)
    have h₈ := word_beBytes hlen (beBytes 4 d.id ++ beBytes 4 d.entry.off)
      (encode ds ++ rest) (show _ = 8 by simp)
    rw [nil_append, length_nil] at h₀
    rw [append_assoc] at h₈
    rw [h₀, h₄, h₈]

/-- The descriptors of some entries. -/
def listed (t : Table) (es : List Eid) : List Descriptor := es.map fun e => ⟨eidDisk e, t e⟩

theorem getEid_eidDisk : getEid (eidDisk e) = e := by
  revert e
  decide

theorem eidDisk_lt : eidDisk e < 2 ^ 32 := by
  revert e
  decide

theorem describe_listed (t₀ : Table) (es : List Eid) :
    describe t₀ (listed t es) e = if e ∈ es then t e else t₀ e := by
  induction es generalizing t₀ with
  | nil => rfl
  | cons x es ih =>
    have hstep : describe t₀ (listed t (x :: es)) =
        describe (update t₀ x (t x)) (listed t es) := by
      rw [listed, map_cons, describe, foldl_cons, getEid_eidDisk]
      rfl
    rw [hstep, ih]
    by_cases he : e = x
    · subst he
      simp
    · simp [he]

/-- The loop of the rebuild functions. -/
theorem rebuildEntries_eq (skip : Eid → Bool) {es : List Eid} {nent pos : ℕ} {data : List UInt8}
    (h : pos + es.length * adEntryLen ≤ data.length) : rebuildEntries skip t es nent pos data =
      (nent + (es.filter fun e => !skip e).length,
        splice data pos (encode (listed t (es.filter fun e => !skip e)))) := by
  induction es generalizing nent pos data with
  | nil => simp [rebuildEntries, listed, encode, splice]
  | cons e es ih =>
    rw [length_cons, Nat.succ_mul] at h
    rw [rebuildEntries]
    split_ifs with hs
    · rw [ih (by omega)]
      simp [hs]
    · have hroom : pos + (bytes ⟨eidDisk e, t e⟩).length ≤ data.length := by
        rw [length_bytes]
        omega
      rw [ih (by rw [length_splice hroom]; omega)]
      have hfilter : (e :: es).filter (fun e => !skip e) = e :: es.filter fun e => !skip e := by
        simp [hs]
      have happ : encode (listed t (e :: es.filter fun e => !skip e)) =
          bytes ⟨eidDisk e, t e⟩ ++
            encode (listed t (es.filter fun e => !skip e)) := by
        simp [encode, listed]
      have hlen := length_filter_le (fun e => !skip e) es
      rw [hfilter, happ, ← splice_append, length_cons]
      · congr 1
        omega
      · rw [length_append, length_bytes, length_encode, listed, length_map]
        have := Nat.mul_le_mul_right adEntryLen hlen
        omega

/-! ### Rebuilt headers -/

theorem beBytes_word (h : off + n ≤ buf.length) :
    beBytes n (word n buf off) = (buf.drop off).take n := by
  rw [word, beBytes_beNat]
  rw [length_take, length_drop]
  omega

/-- The entries with an offset that are not left out, in the order of their numbers. -/
def present (skip : Eid → Bool) (t : Table) : List Eid :=
  (List.finRange 20).filter fun e => !((t e).off = 0 || skip e)

/-- The start of a rebuilt header: the old bytes in front of the number of entries, and the new
number and descriptors. -/
def header (t : Table) (es : List Eid) (bs : List UInt8) : List UInt8 :=
  bs.take adedoffNentries ++ (beBytes 2 es.length ++ encode (listed t es))

theorem length_listed (es : List Eid) : (listed t es).length = es.length :=
  length_map _

theorem length_header {es : List Eid} {bs : List UInt8} (h : adHeaderLen ≤ bs.length) :
    (header t es bs).length = adHeaderLen + es.length * adEntryLen := by
  simp only [header, length_append, length_take, length_beBytes, length_encode,
    length_listed, adHeaderLen, adedoffNentries] at h ⊢
  omega

theorem length_present_le (skip : Eid → Bool) (t : Table) : (present skip t).length ≤ 20 := by
  have := length_filter_le (fun e => !(decide ((t e).off = 0) || skip e)) (finRange 20)
  rwa [length_finRange] at this

section
variable (skip : Eid → Bool) (hlen : ad.data.length = adDataszMax)
  (hm : word 4 ad.data 0 = ad.magic) (hv : word 4 ad.data adedoffVersion = ad.version)
include hlen hm hv

/-- The buffer of a rebuilt header, when the magic and version are those in the buffer. -/
theorem rebuildHeader_data :
    (rebuildHeader skip ad).data = header ad.eid (present skip ad.eid) ad.data ++
      ad.data.drop (adHeaderLen + (present skip ad.eid).length * adEntryLen) := by
  have hle := length_present_le skip ad.eid
  simp only [adDataszMax] at hlen
  have hmagic : splice ad.data 0 (beBytes 4 ad.magic) = ad.data := by
    rw [← hm, beBytes_word (by omega), splice_self (by omega)]
  have hversion : splice ad.data adedoffVersion (beBytes 4 ad.version) = ad.data := by
    rw [← hv, beBytes_word (by simp only [adedoffVersion]; omega),
      splice_self (by simp only [adedoffVersion]; omega)]
  have hloop : rebuildEntries (fun e => (ad.eid e).off = 0 || skip e) ad.eid (finRange 20) 0
      adHeaderLen ad.data = ((present skip ad.eid).length,
        splice ad.data adHeaderLen (encode (listed ad.eid (present skip ad.eid)))) := by
    rw [rebuildEntries_eq, zero_add]
    · rfl
    · rw [length_finRange]
      simp only [adHeaderLen, adEntryLen]
      omega
  -- the number of entries and the descriptors stand side by side
  have hroom : adedoffNentries + (beBytes 2 (present skip ad.eid).length ++
      encode (listed ad.eid (present skip ad.eid))).length ≤ ad.data.length := by
    simp only [length_append, length_beBytes, length_encode, length_listed, adedoffNentries,
      adEntryLen]
    omega
  have hside := splice_append_right hroom
  simp only [rebuildHeader, hmagic, hversion, hloop]
  rw [length_beBytes] at hside
  rw [show adHeaderLen = adedoffNentries + 2 from rfl, hside, splice, header]
  simp only [length_append, length_beBytes, length_encode, length_listed, append_assoc,
    add_assoc]

/-- Bytes over whose start `r` bytes of a rebuilt header are written. -/
def rewritten (t : Table) (es : List Eid) (r : ℕ) (bs : List UInt8) : List UInt8 :=
  (header t es bs).take r ++ bs.drop (min r (adHeaderLen + es.length * adEntryLen))

/-- A rebuilt header written over the start of a file that the buffer holds. -/
theorem writeBack_eq {file : List UInt8} {r : ℕ} (hr : ad.data.take r = file.take r)
    (h24 : ad.data.take adedoffNentries = file.take adedoffNentries) (hfile : r ≤ file.length)
    (hsize : adHeaderLen ≤ file.length) : (rebuildHeader skip ad).data.take r ++ file.drop r =
      rewritten ad.eid (present skip ad.eid) r file := by
  have hhead : header ad.eid (present skip ad.eid) ad.data =
      header ad.eid (present skip ad.eid) file := by rw [header, header, h24]
  have hl : (header ad.eid (present skip ad.eid) file).length =
      adHeaderLen + (present skip ad.eid).length * adEntryLen := length_header hsize
  rw [rebuildHeader_data skip hlen hm hv, hhead, rewritten, ← hl]
  rcases le_total r (header ad.eid (present skip ad.eid) file).length with hle | hle
  · rw [take_append_of_le_length hle, min_eq_left hle]
  · have hrest : (file.take r).drop (header ad.eid (present skip ad.eid) file).length ++
        file.drop r = file.drop (header ad.eid (present skip ad.eid) file).length := by
      rw [← drop_append_of_le_length, take_append_drop]
      rw [length_take]
      omega
    rw [take_append, min_eq_right hle, append_assoc, ← drop_take, hr, hrest]

end

section rewritten
variable {t : Table} {es : List Eid} {r : ℕ} {bs : List UInt8} (hsize : adHeaderLen ≤ bs.length)
include hsize

theorem length_front : (bs.take adedoffNentries).length = adedoffNentries := by
  simp only [length_take, adHeaderLen, adedoffNentries] at hsize ⊢
  omega

theorem getElem?_header_of_lt (hi : i < adedoffNentries) : (header t es bs)[i]? = bs[i]? := by
  rw [header, getElem?_append_left (by rwa [length_front hsize]), getElem?_take,
    if_pos hi]

theorem getElem?_header_of_le (hi : adedoffNentries ≤ i) : (header t es bs)[i]? =
    (beBytes 2 es.length ++ encode (listed t es))[i - adedoffNentries]? := by
  rw [header, getElem?_append_right (by rwa [length_front hsize]), length_front hsize]

theorem getElem?_header_count (hi : adedoffNentries ≤ i) (hi' : i < adHeaderLen) :
    (header t es bs)[i]? = (beBytes 2 es.length)[i - adedoffNentries]? := by
  rw [getElem?_header_of_le hsize hi, getElem?_append_left]
  rw [length_beBytes]
  simp only [adHeaderLen, adedoffNentries] at hi' ⊢
  omega

theorem getElem?_header (hi : adHeaderLen ≤ i) :
    (header t es bs)[i]? = (encode (listed t es))[i - adHeaderLen]? := by
  have hi' : adedoffNentries + 2 ≤ i := hi
  rw [getElem?_header_of_le hsize (by omega),
    getElem?_append_right (by rw [length_beBytes]; omega)]
  rfl

/-- The bytes of the header as far as they are written, and the old bytes from there on. -/
theorem getElem?_rewritten : (rewritten t es r bs)[i]? =
      if i < min r (adHeaderLen + es.length * adEntryLen) then (header t es bs)[i]?
      else bs[i]? := by
  have hl : ((header t es bs).take r).length = min r (adHeaderLen + es.length * adEntryLen) := by
    rw [length_take, length_header hsize]
  rw [rewritten]
  split_ifs with hi
  · rw [getElem?_append_left (by rw [hl]; exact hi), getElem?_take, if_pos (by omega)]
  · rw [getElem?_append_right (by rw [hl]; omega), getElem?_drop]
    congr 1
    omega

theorem length_rewritten (hr : r ≤ bs.length) : (rewritten t es r bs).length = bs.length := by
  rw [rewritten, length_append, length_take, length_header hsize, length_drop]
  omega

theorem word_rewritten (hoff : off + 4 ≤ adedoffNentries) :
    word 4 (rewritten t es r bs) off = word 4 bs off := by
  rw [word]
  congr 1
  rw [slice_eq_iff]
  intro i hle hlt
  rw [getElem?_rewritten hsize]
  split_ifs
  · exact getElem?_header_of_lt hsize (by omega)
  · rfl

section written
variable (hr : adHeaderLen ≤ r)
include hr

/-- The number of entries and the descriptors, as far as they are written. -/
theorem rewritten_eq : rewritten t es r bs =
    bs.take adedoffNentries ++ (beBytes 2 es.length ++
      ((encode (listed t es)).take (r - adHeaderLen) ++
        bs.drop (min r (adHeaderLen + es.length * adEntryLen)))) := by
  have hr' : adedoffNentries + 2 ≤ r := hr
  have htake : (bs.take adedoffNentries).take r = bs.take adedoffNentries :=
    take_of_length_le (by rw [length_front hsize]; omega)
  have hcount : (beBytes 2 es.length).take (r - adedoffNentries) = beBytes 2 es.length :=
    take_of_length_le (by rw [length_beBytes]; omega)
  rw [rewritten, header, take_append, length_front hsize, htake, take_append, hcount]
  simp only [append_assoc]
  rfl

theorem count_rewritten (hes : es.length ≤ 20) : count (rewritten t es r bs) = es.length := by
  rw [rewritten_eq hsize hr]
  exact word_beBytes (by omega) _ _ (length_front hsize)

theorem descs_rewritten (hes : es.length ≤ 20) : descs (rewritten t es r bs) =
    descriptors es.length ((encode (listed t es)).take (r - adHeaderLen) ++
      bs.drop (min r (adHeaderLen + es.length * adEntryLen))) := by
  rw [descs, count_rewritten hsize hr hes, rewritten_eq hsize hr]
  congr 1
  rw [← append_assoc]
  exact drop_left' (by rw [length_append, length_front hsize, length_beBytes]; rfl)

/-- A header that is written whole has the descriptors of its entries. -/
theorem descs_rewritten_of_le (hes : es.length ≤ 20)
    (hle : adHeaderLen + es.length * adEntryLen ≤ r) (hsmall : ∀ d ∈ listed t es, d.Small) :
    descs (rewritten t es r bs) = listed t es := by
  have htake : (encode (listed t es)).take (r - adHeaderLen) = encode (listed t es) :=
    take_of_length_le (by rw [length_encode, length_listed]; omega)
  have := descriptors_encode hsmall (bs.drop (min r (adHeaderLen + es.length * adEntryLen)))
  rwa [length_listed, ← htake, ← descs_rewritten hsize hr hes] at this

end written

end rewritten

end Netatalk.AppleDouble
