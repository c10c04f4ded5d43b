import Netatalk.EaHeader

/-! # The EA header is a finite map

`live` lists the entries that still have a name.  Packing an open header and unpacking the bytes
yields exactly these, in their order (`pack_unpack`), whatever was added and deleted before.  So
the header file stands for a finite map from names to sizes through any number of sessions
(`run_map`). -/

namespace Netatalk.EaHeader

open List Option Bytes Function

/-! ### Live entries -/

/-- The names and sizes of the entries that are not deleted. -/
def live (entries : List Entry) : List (Name × ℕ) :=
  entries.filterMap fun e => e.name.map fun name => (name, e.size)

/-- The entry of a name and size, as the array holds it. -/
def entryOf (x : Name × ℕ) : Entry := ⟨some x.1, x.1.length, x.2⟩

/-- The bytes of the live entries: each one's size and its name with a NUL. -/
def encode (l : List (Name × ℕ)) : List UInt8 :=
  l.flatMap fun x => beBytes 4 x.2 ++ (x.1 ++ [0])

/-- An entry the header can hold: its length is that of its name, which has no NUL, and its size
has 32 bits. -/
def Entry.Ok (e : Entry) : Prop :=
  ∀ name, e.name = some name → e.namelen = name.length ∧ 0 ∉ name ∧ e.size < 2 ^ 32

theorem live_append (a b : List Entry) : live (a ++ b) = live a ++ live b := filterMap_append

variable {a b entries : List Entry} {buf data : List UInt8} {e : Entry} {f : Entry → Entry}
  {l : List (Name × ℕ)} {n off : ℕ}

theorem live_cons_none (h : e.name = none) (es : List Entry) :
    live (e :: es) = live es := by simp [live, h]

variable {name : Name}

theorem live_cons_some (h : e.name = some name) (es : List Entry) :
    live (e :: es) = (name, e.size) :: live es := by simp [live, h]

theorem countP_live (entries : List Entry) :
    entries.countP (fun e => e.name.isSome) = (live entries).length := by
  induction entries with
  | nil => rfl
  | cons e es ih =>
    cases hn : e.name with
    | none => simp [live_cons_none hn, hn, ih]
    | some name => simp [live_cons_some hn, hn, ih]

theorem encode_cons (x : Name × ℕ) (l : List (Name × ℕ)) :
    encode (x :: l) = beBytes 4 x.2 ++ ((x.1 ++ [0]) ++ encode l) := by simp [encode]

/-! ### Packing and unpacking -/

theorem sum_packSize (h : ∀ e ∈ entries, e.Ok) :
    (entries.map Entry.packSize).sum = (encode (live entries)).length := by
  induction entries with
  | nil => rfl
  | cons e es ih =>
    have hes := ih fun x hx => h x (by simp [hx])
    cases hn : e.name with
    | none => simpa [live_cons_none hn, Entry.packSize, hn] using hes
    | some name =>
      have hlen := (h e (by simp) name hn).1
      rw [live_cons_some hn, encode_cons, map_cons, sum_cons]
      simp only [Entry.packSize, hn, isSome_some, if_true, length_append,
        length_beBytes, length_singleton]
      omega

theorem write_eq {bs : List UInt8} (h : off + bs.length ≤ buf.length) :
    write buf off bs = some (splice buf off bs) := if_pos h

/-- The copied entries fill the buffer from the offset on. -/
theorem packEntries_eq (h : ∀ e ∈ entries, e.Ok)
    (hroom : off + (encode (live entries)).length ≤ data.length) :
    packEntries entries off data = some (splice data off (encode (live entries))) := by
  induction entries generalizing off data with
  | nil => simp [packEntries, live, encode, splice]
  | cons e es ih =>
    have hes : ∀ x ∈ es, x.Ok := fun x hx => h x (by simp [hx])
    cases hn : e.name with
    | none =>
      rw [live_cons_none hn] at hroom ⊢
      rw [packEntries]
      simp only [hn]
      exact ih hes hroom
    | some name =>
      have hlen := (h e (by simp) name hn).1
      rw [live_cons_some hn, encode_cons] at hroom ⊢
      have hroom' := hroom
      simp only [length_append, length_beBytes, length_singleton] at hroom'
      -- the size, the name and the rest are three ranges side by side
      have h₁ : off + (beBytes 4 e.size).length ≤ data.length := by
        rw [length_beBytes]
        omega
      have hl₁ := length_splice h₁
      have h₂ : off + 4 + (name ++ [0]).length ≤
          (splice data off (beBytes 4 e.size)).length := by
        rw [length_append, length_singleton]
        omega
      have hl₂ := length_splice h₂
      have h₃ : off + 4 + e.namelen + 1 + (encode (live es)).length ≤
          (splice (splice data off (beBytes 4 e.size)) (off + 4) (name ++ [0])).length := by
        omega
      rw [packEntries]
      simp only [hn, write_eq h₁, write_eq h₂, bind_eq_bind, bind_some, ih hes h₃]
      have hoff : off + 4 + e.namelen + 1 = off + 4 + (name ++ [0]).length := by
        rw [length_append, length_singleton]
        omega
      have happ : off + 4 + ((name ++ [0]) ++ encode (live es)).length ≤
          (splice data off (beBytes 4 e.size)).length := by
        simp only [length_append, length_singleton]
        omega
      rw [hoff, splice_append happ]
      have hlen4 : off + 4 = off + (beBytes 4 e.size).length := by rw [length_beBytes]
      rw [hlen4, splice_append hroom]

theorem takeWhile_name (h : 0 ∉ name) (rest : List UInt8) :
    (name ++ 0 :: rest).takeWhile (· ≠ 0) = name := by
  rw [takeWhile_append_of_pos]
  · simp
  · intro c hc
    simp only [decide_eq_true_eq]
    rintro rfl
    exact h hc

theorem unpackEntries_encode (h : ∀ x ∈ l, 0 ∉ x.1 ∧ x.2 < 2 ^ 32) :
    unpackEntries l.length (encode l) = some (l.map entryOf) := by
  induction l with
  | nil => rfl
  | cons x l ih =>
    obtain ⟨name, size⟩ := x
    obtain ⟨hnul, hsize⟩ := h (name, size) (by simp)
    have hlen : ¬ (encode ((name, size) :: l)).length < 5 := by
      simp only [encode_cons, length_append, length_beBytes, length_singleton]
      omega
    have hbuf : encode ((name, size) :: l) = beBytes 4 size ++ (name ++ 0 :: encode l) := by
      rw [encode_cons, append_assoc, singleton_append]
    have hread : beNat (beBytes 4 size) = size :=
      beNat_beBytes_of_lt (hsize.trans_eq (by decide))
    rw [length_cons, unpackEntries, if_neg hlen, hbuf]
    have htake : (beBytes 4 size ++ (name ++ 0 :: encode l)).take 4 = beBytes 4 size :=
      take_left' (length_beBytes 4 size)
    have hdrop : (beBytes 4 size ++ (name ++ 0 :: encode l)).drop 4 = name ++ 0 :: encode l :=
      drop_left' (length_beBytes 4 size)
    have hrest : (name ++ 0 :: encode l).drop (name.length + 1) = encode l := by
      rw [← drop_drop, drop_left, drop_one, tail_cons]
    simp only [htake, hdrop, takeWhile_name hnul, hrest, ih fun x hx => h x (by simp [hx]),
      hread, map_some, map_cons, entryOf]

/-! ### Handles -/

/-- The bytes in front of the count. -/
def preamble : List UInt8 := beBytes 4 eaMagic ++ beBytes 2 eaVersion

/-- An open header: its entries are in order, no two live ones have the same name, and its buffer
has the magic and version, and a zero count while the array is empty. -/
structure Wf (ea : Ea) : Prop where
  ok : ∀ e ∈ ea.entries, e.Ok
  nodup : ((live ea.entries).map Prod.fst).Nodup
  data : preamble <+: ea.data
  size : eaHeaderSize ≤ ea.data.length
  count : ea.entries = [] → (ea.data.drop eaCountOff).take 2 = [0, 0]

theorem unpackHeader_eq (hn : n < 2 ^ 16) (rest : List UInt8) :
    unpackHeader (preamble ++ (beBytes 2 n ++ rest)) = unpackEntries n rest := by
  have hcount : read (preamble ++ (beBytes 2 n ++ rest)) eaCountOff 2 = some (beBytes 2 n) := by
    have := read_segment preamble (beBytes 2 n) rest
    simpa [preamble, eaCountOff] using this
  have hmagic : read (preamble ++ (beBytes 2 n ++ rest)) 0 4 = some (beBytes 4 eaMagic) := by
    have := read_segment [] (beBytes 4 eaMagic) (beBytes 2 eaVersion ++ (beBytes 2 n ++ rest))
    simpa [preamble] using this
  have hversion : read (preamble ++ (beBytes 2 n ++ rest)) 4 2 = some (beBytes 2 eaVersion) := by
    have := read_segment (beBytes 4 eaMagic) (beBytes 2 eaVersion) (beBytes 2 n ++ rest)
    simpa [preamble] using this
  have hdrop : (preamble ++ (beBytes 2 n ++ rest)).drop eaHeaderSize = rest := by
    rw [← append_assoc]
    exact drop_left' (by simp [preamble, eaHeaderSize])
  have hread : beNat (beBytes 2 n) = n := beNat_beBytes_of_lt (hn.trans_eq (by decide))
  have h₁ : beNat (beBytes 4 eaMagic) = eaMagic := by decide
  have h₂ : beNat (beBytes 2 eaVersion) = eaVersion := by decide
  simp [unpackHeader, hcount, hmagic, hversion, hdrop, hread, h₁, h₂]

section pack
variable (junk : ℕ → UInt8) {ea : Ea}

theorem length_preamble : preamble.length = eaCountOff := by simp [preamble, eaCountOff]

theorem length_resize (data : List UInt8) (size : ℕ) : (resize junk data size).length = size := by
  simp only [resize, length_append, length_take, length_map, length_range]
  omega

/-- The resized buffer still starts with the preamble. -/
theorem exists_resize (h : preamble <+: ea.data) (hn : 2 ≤ n) :
    ∃ c t, resize junk ea.data (eaCountOff + n) = preamble ++ (c ++ t) ∧ c.length = 2 ∧
      t.length = n - 2 := by
  obtain ⟨t, ht⟩ := h
  have hpre : preamble <+: resize junk ea.data (eaCountOff + n) := by
    rw [resize, ← ht, ← length_preamble, take_length_add_append]
    exact prefix_append _ _
  obtain ⟨u, hu⟩ := hpre
  have hlen := congrArg List.length hu
  rw [length_resize, length_append, length_preamble] at hlen
  refine ⟨u.take 2, u.drop 2, by rw [take_append_drop, hu], ?_, ?_⟩
  · rw [length_take]
    omega
  · rw [length_drop]
    omega

/-- The bytes of a packed header that has entries. -/
theorem packHeader_eq (h : Wf ea) (hne : ea.entries ≠ []) :
    packHeader junk ea = some ⟨ea.entries.take (live ea.entries).length,
      preamble ++ (beBytes 2 (live ea.entries).length ++ encode (live ea.entries))⟩ := by
  have hsize : eaHeaderSize + (ea.entries.map Entry.packSize).sum =
      eaCountOff + (2 + (encode (live ea.entries)).length) := by
    rw [sum_packSize h.ok]
    simp only [eaHeaderSize, eaCountOff]
    omega
  obtain ⟨c, t, hr, hc, ht⟩ := exists_resize junk h.data
    (show 2 ≤ 2 + (encode (live ea.entries)).length by omega)
  have hcount : write (preamble ++ (c ++ t)) eaCountOff (beBytes 2 (live ea.entries).length) =
      some (preamble ++ (beBytes 2 (live ea.entries).length ++ t)) := by
    rw [← length_preamble, write_eq, splice_segment t (by rw [hc, length_beBytes])]
    simp only [length_append, length_beBytes]
    omega
  have hpack : packEntries ea.entries eaHeaderSize
      (preamble ++ (beBytes 2 (live ea.entries).length ++ t)) =
      some (preamble ++ (beBytes 2 (live ea.entries).length ++ encode (live ea.entries))) := by
    have hoff : eaHeaderSize = (preamble ++ beBytes 2 (live ea.entries).length).length := by
      simp [length_preamble, eaHeaderSize, eaCountOff]
    have hbuf : preamble ++ (beBytes 2 (live ea.entries).length ++ t) =
        (preamble ++ beBytes 2 (live ea.entries).length) ++ (t ++ []) := by simp
    rw [packEntries_eq h.ok, hbuf, hoff, splice_segment [] (by omega)]
    · simp
    · rw [hoff]
      simp only [length_append]
      omega
  simp [packHeader, hne, hsize, hr, countP_live, hcount, hpack]

omit junk in
theorem Wf.live_ok (h : Wf ea) : ∀ x ∈ live ea.entries, 0 ∉ x.1 ∧ x.2 < 2 ^ 32 := by
  intro x hx
  simp only [live, mem_filterMap, map_eq_some_iff] at hx
  obtain ⟨e, he, name, hn, rfl⟩ := hx
  exact (h.ok e he name hn).2

omit junk in
theorem Wf.unpack_nil (h : Wf ea) (hnil : ea.entries = []) : unpackHeader ea.data = some [] := by
  obtain ⟨t, ht⟩ := h.data
  have hc := h.count hnil
  rw [← ht] at hc
  have hdata : ea.data = preamble ++ (beBytes 2 0 ++ t.drop 2) := by
    rw [← ht, show beBytes 2 0 = t.take 2 from hc.symm, take_append_drop]
  rw [hdata]
  rfl

/-- Packing succeeds, and the packed bytes unpack to the live entries. -/
theorem pack_unpack (h : Wf ea) (hlive : (live ea.entries).length < 2 ^ 16) :
    ∃ ea', packHeader junk ea = some ea' ∧
      unpackHeader ea'.data = some ((live ea.entries).map entryOf) ∧
      (ea'.entries = [] ↔ live ea.entries = []) := by
  by_cases hnil : ea.entries = []
  · refine ⟨ea, by simp [packHeader, hnil], ?_, by simp [hnil, live]⟩
    rw [h.unpack_nil hnil, hnil]
    rfl
  · refine ⟨_, packHeader_eq junk h hnil, ?_, by simp [hnil]⟩
    rw [unpackHeader_eq hlive, unpackEntries_encode h.live_ok]

end pack

/-! ### Adding and deleting -/

/-- The entry of a name is the one that is changed. -/
theorem updateEntry_eq_some {entries' : List Entry}
    (h : updateEntry name f entries = some entries') :
    ∃ a e b, entries = a ++ e :: b ∧ e.name = some name ∧ entries' = a ++ f e :: b := by
  fun_induction updateEntry name f entries generalizing entries' with
  | case1 => cases h
  | case2 x es hx =>
    cases h
    exact ⟨[], x, es, rfl, hx, rfl⟩
  | case3 x es _ ih =>
    obtain ⟨es', hes, rfl⟩ := map_eq_some_iff.mp h
    obtain ⟨a, e, b, rfl, he, rfl⟩ := ih hes
    exact ⟨x :: a, e, b, rfl, he, rfl⟩

theorem updateEntry_eq_none (h : updateEntry name f entries = none) :
    ∀ e ∈ entries, e.name ≠ some name := by
  fun_induction updateEntry name f entries with
  | case1 => simp
  | case2 => cases h
  | case3 x es hx ih => simpa [hx] using ih (map_eq_none_iff.mp h)

/-- A map from names to sizes. -/
abbrev AttrMap := Name → Option ℕ

/-- The sizes of the live entries, by name. -/
def sizes (entries : List Entry) : AttrMap := fun name => (live entries).lookup name

/-- What a call does to the map: `O_CREAT` keeps an attribute that exists, and `O_TRUNC` adds none
that does not. -/
def Op.onMap : Op → AttrMap → AttrMap
  | .add name size creat trunc, m =>
    if (if (m name).isSome then creat else trunc) then m else update m name (some size)
  | .del name, m => update m name none

/-- A call with a name without NUL and a size of 32 bits. -/
def Op.Valid : Op → Prop
  | .add name size _ _ => 0 ∉ name ∧ size < 2 ^ 32
  | .del name => 0 ∉ name

section lookup
variable {l₁ l₂ : List (Name × ℕ)} {name : Name} {size size' : ℕ}

theorem lookup_of_notMem (h : name ∉ l.map Prod.fst) : l.lookup name = none := by
  rw [lookup_eq_none_iff]
  intro x hx
  have hne : name ≠ x.1 := by
    rintro rfl
    exact h (List.mem_map_of_mem hx)
  simpa using hne

variable (hn : ((l₁ ++ (name, size) :: l₂).map Prod.fst).Nodup)
include hn

theorem notMem_of_nodup : name ∉ l₁.map Prod.fst ∧ name ∉ l₂.map Prod.fst := by
  rw [map_append, map_cons, nodup_middle, nodup_cons] at hn
  simpa [not_or] using hn.1

theorem lookup_replace : (fun n => (l₁ ++ (name, size') :: l₂).lookup n) =
    update (fun n => (l₁ ++ (name, size) :: l₂).lookup n) name (some size') := by
  rw [eq_update_iff]
  refine ⟨by simp [lookup_append, lookup_of_notMem (notMem_of_nodup hn).1], fun n hne => ?_⟩
  simp [lookup_append, lookup_cons, beq_eq_false_iff_ne.mpr hne]

theorem lookup_remove : (fun n => (l₁ ++ l₂).lookup n) =
    update (fun n => (l₁ ++ (name, size) :: l₂).lookup n) name none := by
  obtain ⟨h₁, h₂⟩ := notMem_of_nodup hn
  rw [eq_update_iff]
  refine ⟨by simp [lookup_append, lookup_of_notMem h₁, lookup_of_notMem h₂], fun n hne => ?_⟩
  simp [lookup_append, lookup_cons, beq_eq_false_iff_ne.mpr hne]

theorem lookup_found : (l₁ ++ (name, size) :: l₂).lookup name = some size := by
  simp [lookup_append, lookup_of_notMem (notMem_of_nodup hn).1]

end lookup

theorem lookup_append_new (h : name ∉ l.map Prod.fst) (size : ℕ) :
    (fun n => (l ++ [(name, size)]).lookup n) =
      update (fun n => l.lookup n) name (some size) := by
  rw [eq_update_iff]
  refine ⟨by simp [lookup_append, lookup_of_notMem h], fun n hne => ?_⟩
  simp [lookup_append, lookup_cons, beq_eq_false_iff_ne.mpr hne]

theorem notMem_live (h : ∀ e ∈ entries, e.name ≠ some name) :
    name ∉ (live entries).map Prod.fst := by
  intro hm
  simp only [live, List.mem_map, mem_filterMap, map_eq_some_iff] at hm
  obtain ⟨x, ⟨e, he, n, hn, rfl⟩, rfl⟩ := hm
  exact h e he hn

section ops
variable {ea : Ea} (h : Wf ea)
include h

/-- The same buffer with other entries. -/
theorem Wf.withEntries (hok : ∀ e ∈ entries, e.Ok) (hnodup : ((live entries).map Prod.fst).Nodup)
    (hne : entries ≠ []) : Wf { ea with entries := entries } :=
  ⟨hok, hnodup, h.data, h.size, fun hnil => absurd hnil hne⟩

theorem Wf.ok_replace {e' : Entry} (hea : ea.entries = a ++ e :: b)
    (he' : e.Ok → e'.Ok) : ∀ x ∈ a ++ e' :: b, x.Ok := by
  have hmem : ∀ y ∈ a ++ e :: b, y.Ok := hea ▸ h.ok
  intro x hx
  rcases mem_append.mp hx with hx | hx
  · exact hmem x (by simp [hx])
  · rcases mem_cons.mp hx with rfl | hx
    · exact he' (hmem e (by simp))
    · exact hmem x (by simp [hx])

variable {name : Name} {size : ℕ}

theorem Wf.resize (hsize : size < 2 ^ 32) (hea : ea.entries = a ++ e :: b) (he : e.name = some name)
    : Wf { ea with entries := a ++ { e with size := size } :: b } ∧
      sizes (a ++ { e with size := size } :: b) =
        update (sizes ea.entries) name (some size) ∧
      sizes ea.entries name = some e.size := by
  have hlive : live ea.entries = live a ++ (name, e.size) :: live b := by
    rw [hea, live_append, live_cons_some he]
  have hlive' : live (a ++ { e with size := size } :: b) =
      live a ++ (name, size) :: live b := by
    rw [live_append, live_cons_some]
    exact he
  have hn := h.nodup
  rw [hlive] at hn
  have hok : ∀ x ∈ a ++ { e with size := size } :: b, x.Ok :=
    h.ok_replace hea fun hok n hn' => ⟨(hok n hn').1, (hok n hn').2.1, hsize⟩
  refine ⟨h.withEntries hok ?_ (by simp), ?_, ?_⟩
  · rw [hlive']
    simpa using hn
  · unfold sizes
    rw [hlive', hlive]
    exact lookup_replace hn
  · rw [sizes, hlive, lookup_found hn]

theorem Wf.append (hname : 0 ∉ name) (hsize : size < 2 ^ 32)
    (hnew : ∀ e ∈ ea.entries, e.name ≠ some name) :
    Wf { ea with entries := ea.entries ++ [⟨some name, name.length, size⟩] } ∧
      sizes (ea.entries ++ [⟨some name, name.length, size⟩]) =
        update (sizes ea.entries) name (some size) := by
  have hmem := notMem_live hnew
  have hlive : live (ea.entries ++ [⟨some name, name.length, size⟩]) =
      live ea.entries ++ [(name, size)] := by
    rw [live_append]
    rfl
  refine ⟨h.withEntries (fun x hx => ?_) ?_ (by simp), ?_⟩
  · rcases mem_append.mp hx with hx | hx
    · exact h.ok x hx
    · rw [mem_singleton.mp hx]
      rintro n hn'
      cases hn'
      exact ⟨rfl, hname, hsize⟩
  · rw [hlive, map_append, nodup_append']
    exact ⟨h.nodup, by simp, by simpa using hmem⟩
  · unfold sizes
    rw [hlive]
    exact lookup_append_new hmem size

theorem Wf.addentry (hname : 0 ∉ name) (hsize : size < 2 ^ 32)
    (creat trunc : Bool) : Wf (eaAddentry ea name size creat trunc).2 ∧
      sizes (eaAddentry ea name size creat trunc).2.entries =
        (Op.add name size creat trunc).onMap (sizes ea.entries) := by
  cases hu : updateEntry name (fun e => { e with size := size }) ea.entries with
  | some entries =>
    obtain ⟨a, e, b, hea, he, rfl⟩ := updateEntry_eq_some hu
    obtain ⟨hwf, hsizes, hfound⟩ := h.resize hsize hea he
    cases creat with
    | true =>
      exact ⟨by simpa [eaAddentry, hu] using h, by simp [eaAddentry, hu, Op.onMap, hfound]⟩
    | false =>
      simp only [eaAddentry, hu, Bool.false_eq_true, if_false, Op.onMap, hfound]
      exact ⟨hwf, hsizes⟩
  | none =>
    have hnew := updateEntry_eq_none hu
    have hnone : sizes ea.entries name = none := lookup_of_notMem (notMem_live hnew)
    cases trunc with
    | true => exact ⟨by simpa [eaAddentry, hu] using h, by simp [eaAddentry, hu, Op.onMap, hnone]⟩
    | false =>
      simp only [eaAddentry, hu, Bool.false_eq_true, if_false, Op.onMap, hnone]
      exact h.append hname hsize hnew

theorem Wf.delentry (name : Name) : Wf (eaDelentry ea name).2 ∧
    sizes (eaDelentry ea name).2.entries = (Op.del name).onMap (sizes ea.entries) := by
  have hsame : (∀ e ∈ ea.entries, e.name ≠ some name) →
      sizes ea.entries = update (sizes ea.entries) name none := by
    intro hnone
    rw [← show sizes ea.entries name = none from lookup_of_notMem (notMem_live hnone),
      update_eq_self]
  unfold eaDelentry
  split_ifs with hnil
  · exact ⟨h, hsame (by simp [hnil])⟩
  · cases hu : updateEntry name (fun e => { e with name := none }) ea.entries with
    | none => exact ⟨h, hsame (updateEntry_eq_none hu)⟩
    | some entries =>
      obtain ⟨a, e, b, hea, he, rfl⟩ := updateEntry_eq_some hu
      have hlive : live ea.entries = live a ++ (name, e.size) :: live b := by
        rw [hea, live_append, live_cons_some he]
      have hlive' : live (a ++ { e with name := none } :: b) = live a ++ live b := by
        rw [live_append, live_cons_none rfl]
      have hn := h.nodup
      rw [hlive] at hn
      have hok : ∀ x ∈ a ++ { e with name := none } :: b, x.Ok :=
        h.ok_replace hea fun _ n hn' => by cases hn'
      refine ⟨h.withEntries hok ?_ (by simp), ?_⟩
      · rw [hlive']
        rw [map_append, map_cons, nodup_middle, nodup_cons] at hn
        simpa using hn.2
      · unfold sizes
        rw [hlive', hlive]
        exact lookup_remove hn

theorem Wf.apply {op : Op} (hop : op.Valid) :
    Wf (op.apply ea) ∧ sizes (op.apply ea).entries = op.onMap (sizes ea.entries) := by
  cases op with
  | add name size creat trunc => exact h.addentry hop.1 hop.2 creat trunc
  | del name => exact h.delentry name

/-- The same for any number of changes. -/
theorem Wf.applyAll {ops : List Op} (hops : ∀ op ∈ ops, op.Valid) :
    Wf (ops.foldl (fun ea op => op.apply ea) ea) ∧
      sizes (ops.foldl (fun ea op => op.apply ea) ea).entries =
        ops.foldl (fun m op => op.onMap m) (sizes ea.entries) := by
  induction ops generalizing ea with
  | nil => exact ⟨h, rfl⟩
  | cons op ops ih =>
    obtain ⟨hwf, hm⟩ := h.apply (hops op (by simp))
    obtain ⟨hwf', hm'⟩ := ih hwf fun o ho => hops o (by simp [ho])
    exact ⟨hwf', by rw [foldl_cons, foldl_cons, hm', hm]⟩

end ops

/-! ### Opening -/

theorem unpackEntries_ok {count : ℕ} (h : unpackEntries count buf = some entries) :
    entries.length = count ∧ ∀ e ∈ entries, e.Ok := by
  induction count generalizing buf entries with
  | zero =>
    cases h
    exact ⟨rfl, by simp⟩
  | succ count ih =>
    rw [unpackEntries] at h
    split_ifs at h
    obtain ⟨es, hes, rfl⟩ := map_eq_some_iff.mp h
    obtain ⟨hlen, hok⟩ := ih hes
    refine ⟨by rw [length_cons, hlen], forall_mem_cons.2 ⟨?_, hok⟩⟩
    rintro name ⟨rfl⟩
    refine ⟨rfl, fun hz => ?_, ?_⟩
    · simpa using List.all_eq_true.mp all_takeWhile 0 hz
    · exact (beNat_lt (length_take_le 4 buf)).trans_eq (by decide)

/-- What a header that is not refused looks like. -/
theorem unpackHeader_eq_some (h : unpackHeader data = some entries) :
    preamble <+: data ∧ eaHeaderSize ≤ data.length ∧
      unpackEntries (beNat ((data.drop eaCountOff).take 2)) (data.drop eaHeaderSize) =
        some entries := by
  unfold unpackHeader at h
  cases hmagic : read data 0 4 with
  | none => simp [hmagic] at h
  | some magic =>
  cases hversion : read data 4 2 with
  | none => simp [hmagic, hversion] at h
  | some version =>
  cases hcount : read data eaCountOff 2 with
  | none => simp [hmagic, hversion, hcount] at h
  | some count =>
  have hm : beNat magic = eaMagic := by
    by_contra hm
    simp [hmagic, hm] at h
  have hv : beNat version = eaVersion := by
    by_contra hv
    simp [hversion, hv] at h
  simp only [hmagic, hversion, hcount, hm, hv, bind_eq_bind, bind_some, ne_eq,
    not_true_eq_false, if_false] at h
  rw [read_eq_some] at hmagic hversion hcount
  have hlen : eaHeaderSize ≤ data.length := hcount.1
  have hmagic' : beBytes 4 eaMagic = magic := by
    rw [← hm, beBytes_beNat]
    rw [← hmagic.2, length_take, length_drop]
    omega
  have hversion' : beBytes 2 eaVersion = version := by
    rw [← hv, beBytes_beNat]
    rw [← hversion.2, length_take, length_drop]
    omega
  have hpre : preamble = data.take 6 := by
    rw [preamble, hmagic', hversion', ← hmagic.2, ← hversion.2, drop_zero,
      ← take_add]
  exact ⟨hpre ▸ take_prefix 6 data, hlen, by rw [hcount.2, h]⟩

/-- A file opens as a header in order when no two of its entries have the same name. -/
theorem Wf.of_open {create : Bool} {file : Option (List UInt8)} {ea : Ea}
    (h : eaOpen create file = .ok ea) (hnodup : ((live ea.entries).map Prod.fst).Nodup) :
    Wf ea := by
  have hnew : Wf ⟨[], newHeader⟩ :=
    ⟨by simp, by simp [live], by decide, by decide, fun _ => by decide⟩
  revert h
  fun_cases eaOpen create file with
  | case1 | case3 => simpa using fun h => h ▸ hnew
  | case2 | case5 => simp
  | case4 data hne entries hu =>
    rintro ⟨⟩
    obtain ⟨hpre, hlen, hentries⟩ := unpackHeader_eq_some hu
    obtain ⟨hcount, hok⟩ := unpackEntries_ok hentries
    refine ⟨hok, hnodup, hpre, hlen, fun hnil => ?_⟩
    dsimp only at hnil
    rw [hnil] at hcount
    rw [← beBytes_beNat (show ((data.drop eaCountOff).take 2).length = 2 from ?_), ← hcount]
    · decide
    · rw [length_take, length_drop]
      simp only [eaHeaderSize, eaCountOff] at hlen ⊢
      omega

/-! ### Sessions -/

/-- The map without attributes. -/
def AttrMap.empty : AttrMap := fun _ => none

open Classical in
/-- What a session does to the map of a header; none is a header that does not exist, which only
`EA_CREATE` opens and which a session that ends without attributes leaves. -/
noncomputable def Session.onMap (s : Session) (m : Option AttrMap) : Option AttrMap :=
  if m = none ∧ s.create = false then none
  else
    let m' := s.ops.foldl (fun m op => op.onMap m) (m.getD .empty)
    if m' = .empty then none else some m'

/-- A header file stands for the map of the entries that it opens with, all of other names. -/
def Represents : Option (List UInt8) → Option AttrMap → Prop
  | none, m => m = none
  | some data, m => ∃ ea, eaOpen false (some data) = .ok ea ∧
      ((live ea.entries).map Prod.fst).Nodup ∧ m = some (sizes ea.entries)

/-- The open header after a session's calls. -/
def Session.last (s : Session) (ea : Ea) : Ea := s.ops.foldl (fun ea op => op.apply ea) ea

/-- A session closes its header with fewer than 65536 live entries. -/
def Session.FewLive (s : Session) (file : Option (List UInt8)) : Prop :=
  ∀ ea, eaOpen s.create file = .ok ea → (live (s.last ea).entries).length < 2 ^ 16

def FewLive (junk : ℕ → UInt8) : List Session → Option (List UInt8) → Prop
  | [], _ => True
  | s :: ss, file => s.FewLive file ∧ ∀ file', s.run junk file = some file' → FewLive junk ss file'

theorem live_map_entryOf (l : List (Name × ℕ)) : live (l.map entryOf) = l := by
  induction l with
  | nil => rfl
  | cons x l ih => rw [map_cons, live_cons_some rfl, ih]; rfl

theorem sizes_eq_empty : sizes entries = .empty ↔ live entries = [] := by
  constructor
  · intro h
    by_contra hne
    obtain ⟨x, l, hl⟩ := exists_cons_of_ne_nil hne
    have := congrFun h x.1
    rw [sizes, hl] at this
    simp [AttrMap.empty] at this
  · intro h
    funext name
    simp [sizes, h, AttrMap.empty]

section session
variable (junk : ℕ → UInt8) {s : Session} {file : Option (List UInt8)} {m : Option AttrMap}
  {ea : Ea}

omit junk in
/-- The header opens with the entries of the map. -/
theorem Represents.open_ok (hr : Represents file m) (h : eaOpen s.create file = .ok ea) :
    Wf ea ∧ sizes ea.entries = m.getD .empty ∧ ¬ (m = none ∧ s.create = false) := by
  cases file with
  | none =>
    cases hc : s.create with
    | false => simp [eaOpen, hc] at h
    | true =>
      simp only [eaOpen, hc, if_true] at h
      cases h
      have hopen : eaOpen true none = .ok ⟨[], newHeader⟩ := rfl
      refine ⟨Wf.of_open hopen (by simp [live]), ?_, by simp⟩
      rw [show m = none from hr]
      rfl
  | some data =>
    obtain ⟨ea', hopen, hnodup, rfl⟩ := hr
    have heq : ea = ea' := by
      rw [show eaOpen s.create (some data) = eaOpen false (some data) from rfl, hopen] at h
      exact (Except.ok.inj h).symm
    subst heq
    exact ⟨Wf.of_open hopen hnodup, rfl, by simp⟩

omit junk in
theorem Represents.open_error (hr : Represents file m) {e : OpenErr}
    (h : eaOpen s.create file = .error e) : m = none ∧ s.create = false := by
  cases file with
  | none =>
    refine ⟨hr, ?_⟩
    cases hc : s.create with
    | false => rfl
    | true => simp [eaOpen, hc] at h
  | some data =>
    obtain ⟨ea', hopen, -, -⟩ := hr
    rw [show eaOpen s.create (some data) = eaOpen false (some data) from rfl, hopen] at h
    cases h

/-- Closing writes a file that stands for the map of the live entries, and removes it when there
are none. -/
theorem Wf.close (h : Wf ea) (hlive : (live ea.entries).length < 2 ^ 16) :
    ∃ file, eaClose junk ea = some file ∧
      Represents file (if live ea.entries = [] then none else some (sizes ea.entries)) := by
  obtain ⟨ea', hpack, hunpack, hnil⟩ := pack_unpack junk h hlive
  refine ⟨if ea'.entries = [] then none else some ea'.data, by simp [eaClose, hpack], ?_⟩
  by_cases hl : live ea.entries = []
  · rw [if_pos hl, if_pos (hnil.mpr hl)]
    rfl
  · rw [if_neg hl, if_neg fun he => hl (hnil.mp he)]
    have hdata : ea'.data ≠ [] := by
      intro he
      rw [he] at hunpack
      cases hunpack
    refine ⟨⟨(live ea.entries).map entryOf, ea'.data⟩, by simp [eaOpen, hdata, hunpack], ?_, ?_⟩
    · rw [live_map_entryOf]
      exact h.nodup
    · unfold sizes
      rw [live_map_entryOf]

/-- A session does to the file what its calls do to the map. -/
theorem Represents.session (hr : Represents file m) (hv : ∀ op ∈ s.ops, op.Valid)
    (hl : s.FewLive file) :
    ∃ file', s.run junk file = some file' ∧ Represents file' (s.onMap m) := by
  cases hopen : eaOpen s.create file with
  | error e =>
    refine ⟨file, by simp [Session.run, hopen], ?_⟩
    rw [Session.onMap, if_pos (hr.open_error hopen)]
    rwa [← (hr.open_error hopen).1]
  | ok ea =>
    obtain ⟨hwf, hm, hnew⟩ := hr.open_ok hopen
    obtain ⟨hwf', hm'⟩ := hwf.applyAll hv
    obtain ⟨file', hclose, hrep⟩ := hwf'.close junk (hl ea hopen)
    refine ⟨file', by simp [Session.run, hopen, hclose], ?_⟩
    rw [Session.onMap, if_neg hnew]
    simp only [← hm, ← hm', sizes_eq_empty]
    exact hrep

/-- From a header file with entries of different names on, any number of sessions of additions and
deletions leaves a header that stands for the map they leave.  And whatever is then added and
deleted in it, packing and unpacking yields its live entries, in their order. -/
theorem run_map {ss : List Session} (hr : Represents file m) (hv : ∀ s ∈ ss, ∀ op ∈ s.ops, op.Valid)
    (hl : FewLive junk ss file) : ∃ file', run junk ss file = some file' ∧
      Represents file' (ss.foldl (fun m s => s.onMap m) m) ∧
      ∀ s : Session, (∀ op ∈ s.ops, op.Valid) → s.FewLive file' →
        ∀ ea, eaOpen s.create file' = .ok ea →
          ∃ ea', packHeader junk (s.last ea) = some ea' ∧
            unpackHeader ea'.data = some ((live (s.last ea).entries).map entryOf) := by
  induction ss generalizing file m with
  | nil =>
    refine ⟨file, rfl, hr, fun s hs hfew ea hopen => ?_⟩
    obtain ⟨hwf, -, -⟩ := hr.open_ok hopen
    obtain ⟨ea', hpack, hunpack, -⟩ := pack_unpack junk (hwf.applyAll hs).1 (hfew ea hopen)
    exact ⟨ea', hpack, hunpack⟩
  | cons s ss ih =>
    obtain ⟨file₁, hrun, hr₁⟩ := hr.session junk (hv s (by simp)) hl.1
    obtain ⟨file', hrun', h'⟩ := ih hr₁ (fun t ht => hv t (by simp [ht])) (hl.2 file₁ hrun)
    exact ⟨file', by simp [run, hrun, hrun'], h'⟩

end session

/-- A session that leaves a hole in front of the entry it keeps. -/
def holeSession : Session :=
  ⟨true, [.add [97] 5 false false, .add [98] 7 true false, .del [97]]⟩

theorem run_map_hole : run (fun _ => 0) [holeSession, ⟨false, [.add [98] 9 false true]⟩] none =
      some (some (preamble ++ [0, 1] ++ [0, 0, 0, 9] ++ [98, 0])) ∧
    ∃ file, run (fun _ => 0) [holeSession, ⟨false, [.add [98] 9 false true]⟩] none = some file ∧
      Represents file
        (Session.onMap ⟨false, [.add [98] 9 false true]⟩ (holeSession.onMap none)) := by
  have hv : ∀ s ∈ [holeSession, ⟨false, [.add [98] 9 false true]⟩], ∀ op ∈ s.ops, op.Valid := by
    simp [holeSession, Op.Valid]
  have hrun : holeSession.run (fun _ => 0) none =
      some (some (preamble ++ [0, 1] ++ [0, 0, 0, 7] ++ [98, 0])) := by decide
  have hopen : eaOpen false (some (preamble ++ [0, 1] ++ [0, 0, 0, 7] ++ [98, 0])) =
      .ok ⟨[⟨some [98], 1, 7⟩], preamble ++ [0, 1] ++ [0, 0, 0, 7] ++ [98, 0]⟩ := by decide
  have hl : FewLive (fun _ => 0) [holeSession, ⟨false, [.add [98] 9 false true]⟩] none := by
    refine ⟨fun ea h => ?_, fun file hfile => ⟨fun ea h => ?_, fun _ _ => trivial⟩⟩
    · cases h
      decide
    · rw [hrun] at hfile
      cases hfile
      cases hopen.symm.trans h
      decide
  obtain ⟨file, hfile, hr, -⟩ := run_map (fun _ => 0) (show Represents none none from rfl) hv hl
  exact ⟨by decide, file, hfile, hr⟩

/-! ### Reads outside the buffer -/

theorem entryReads_within (count off : ℕ) : (entryReads data count off).length ≤ 2 * count ∧
    ∀ r ∈ entryReads data count off, r.1 + r.2 ≤ data.length := by
  fun_induction entryReads data count off with
  | case1 | case2 => exact ⟨zero_le, by simp⟩
  | case3 off count hshort n ih =>
    obtain ⟨hlen, hrest⟩ := ih
    refine ⟨?_, forall_mem_cons.mpr ⟨by omega, forall_mem_cons.mpr ⟨by omega, hrest⟩⟩⟩
    rw [length_cons, length_cons]
    omega

/-- `unpack_header` always ends, and reads nothing outside the buffer unless the file is too short
for the fields in front of its entries. -/
theorem headerReads_within_iff (data after : List UInt8) :
    (headerReads data after).length ≤ 3 + 2 * 2 ^ 16 ∧
    ((∀ r ∈ headerReads data after, r.1 + r.2 ≤ data.length) ↔
      eaHeaderSize ≤ data.length ∨ 4 ≤ data.length ∧ beNat (data.take 4) ≠ eaMagic ∨
        6 ≤ data.length ∧ beNat ((data.drop 4).take 2) ≠ eaVersion) := by
  have hmagic : 4 ≤ data.length → (data ++ after).take 4 = data.take 4 :=
    take_append_of_le_length
  have hversion : 6 ≤ data.length → ((data ++ after).drop 4).take 2 = (data.drop 4).take 2 := by
    intro h
    rw [drop_append_of_le_length (by omega), take_append_of_le_length]
    rw [length_drop]
    omega
  have hcount : beNat (((data ++ after).drop eaCountOff).take 2) < 2 ^ 16 :=
    beNat_lt (length_take_le _ _)
  obtain ⟨hlen, hrest⟩ := @entryReads_within data
    (beNat (((data ++ after).drop eaCountOff).take 2)) eaHeaderSize
  have hsize : eaHeaderSize = 8 := rfl
  rw [headerReads]
  split_ifs with h₁ h₂
  · simp only [length_cons, length_nil, forall_mem_cons, not_mem_nil]
    refine ⟨by decide, fun h => .inr (.inl ⟨by omega, hmagic (by omega) ▸ h₁⟩), ?_⟩
    rintro (h | ⟨h, -⟩ | ⟨h, -⟩) <;> exact ⟨by omega, by simp⟩
  · rw [not_not] at h₁
    simp only [length_cons, length_nil, forall_mem_cons, not_mem_nil]
    refine ⟨by decide, fun h => .inr (.inr ⟨by omega, hversion (by omega) ▸ h₂⟩), ?_⟩
    rintro (h | ⟨h, hne⟩ | ⟨h, -⟩)
    · exact ⟨by omega, by omega, by simp⟩
    · exact absurd h₁ (hmagic h ▸ hne)
    · exact ⟨by omega, h, by simp⟩
  · rw [not_not] at h₁ h₂
    simp only [length_cons, forall_mem_cons]
    refine ⟨by omega, fun h => .inl h.2.2.1, ?_⟩
    rintro (h | ⟨h, hne⟩ | ⟨h, hne⟩)
    · exact ⟨by omega, by omega, h, hrest⟩
    · exact absurd h₁ (hmagic h ▸ hne)
    · exact absurd h₂ (hversion h ▸ hne)

theorem headerReads_oneByte : (0, 4) ∈ headerReads [0x61] [] ∧ [0x61].length < 0 + 4 :=
  ⟨mem_cons_self, by decide⟩

/-! ### Additions that fail -/

theorem eaAddentryAlloc_failed {ea : Ea} {grown copied creat trunc : Bool} {size : ℕ}
    (h : (eaAddentryAlloc grown copied ea name size creat trunc).1 = -1) :
    (eaAddentryAlloc grown copied ea name size creat trunc).2 =
      if grown then { ea with entries := [] } else ea := by
  revert h
  fun_cases eaAddentryAlloc grown copied ea name size creat trunc <;> simp_all

/-- When memory runs out, an addition keeps the entries only if the array could not be grown; else
closing removes the file with all its attributes. -/
theorem close_failed_addentry_iff (junk : ℕ → UInt8) {ea : Ea} {grown copied creat trunc : Bool}
    {size : ℕ} (h : Wf ea) (hlive : (live ea.entries).length < 2 ^ 16)
    (hfail : (eaAddentryAlloc grown copied ea name size creat trunc).1 = -1) :
    ((eaAddentryAlloc grown copied ea name size creat trunc).2.entries = ea.entries ↔
      grown = false ∨ ea.entries = []) ∧
    ((∃ file, eaClose junk (eaAddentryAlloc grown copied ea name size creat trunc).2 = some file ∧
      Represents file (if live ea.entries = [] then none else some (sizes ea.entries))) ↔
      grown = false ∨ live ea.entries = []) := by
  rw [eaAddentryAlloc_failed hfail]
  cases grown with
  | false => exact ⟨iff_of_true rfl (.inl rfl), iff_of_true (h.close junk hlive) (.inl rfl)⟩
  | true =>
    refine ⟨by simp [eq_comm], ?_⟩
    have hclose : eaClose junk { ea with entries := [] } = some none := by
      simp [eaClose, packHeader]
    by_cases hnil : live ea.entries = []
    · rw [if_pos hnil]
      exact iff_of_true ⟨none, rfl, rfl⟩ (.inr hnil)
    · rw [if_neg hnil]
      refine iff_of_false ?_ (by simp [hnil])
      rintro ⟨file, hfile, hr⟩
      cases hfile
      cases hr

/-- A header with one attribute. -/
def oneEntry : Ea :=
  ⟨[⟨some [97], 1, 5⟩], preamble ++ [0, 1, 0, 0, 0, 5, 97, 0]⟩

theorem close_failed_addentry_array : ∃ file, eaClose (fun _ => 0)
    (eaAddentryAlloc false true oneEntry [98] 3 true false).2 = some file ∧
      Represents file (some (sizes oneEntry.entries)) :=
  have hwf : Wf oneEntry := @Wf.of_open false (some oneEntry.data) _ rfl (by decide)
  (close_failed_addentry_iff _ hwf (by decide) rfl).2.mpr (.inl rfl)

theorem close_failed_addentry_removes :
    (eaAddentryAlloc true false oneEntry [98] 3 true false).1 = -1 ∧
    eaClose (fun _ => 0) (eaAddentryAlloc true false oneEntry [98] 3 true false).2 = some none ∧
    eaClose (fun _ => 0) oneEntry = some (some oneEntry.data) := by
  decide +kernel

end Netatalk.EaHeader
