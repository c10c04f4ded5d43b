import Netatalk.Demangle
import Netatalk.PrecomposeTables

/-! # The name that a client is shown leads back

The model of `convert_charset` between the names of a UTF-8 volume and UTF8-MAC
(`libatalk/unicode/charcnv.c`), and of `mtoupath` (`etc/afpd/desktop.c`), over the `utompath` of
`Mangle`.

* **Flags.**  `mtoupath` converts with `CONV__EILSEQ` or without any flag, `utompath` with
  `CONV_IGNORE` and perhaps `CONV__EILSEQ`.  There is no case folding and nothing is escaped.
* **Errors.**  `utf8_pull` fails with `EINVAL`, `EILSEQ` or `E2BIG`, `utf8_push` never with
  `EILSEQ`, so that an error of the latter is an error of the conversion.
* **Demangling.**  `mtoupath` asks `private_demangle` first, unless the directory is 0.

A name that was shown without mangling leads back to the name on disk exactly if this is not empty
and no character of it composes with the first part of the one after it
(`mtoupath_utompath_iff`). -/

namespace Netatalk.Unicode

open List Option GreedyJoin Mangle

/-! ### `convert_charset` -/

/-- From UTF8-MAC to the UTF-8 of the volume, or the other way. -/
inductive Direction where
  | toDisk
  | toClient
deriving DecidableEq, Repr

/-- `CONV_IGNORE` and `CONV__EILSEQ`. -/
structure Flags where
  ignore : Bool
  eilseq : Bool
deriving DecidableEq, Repr

/-- `IGNORE_CHAR`. -/
def ignoreChar : ℕ := 0x5F

/-- `decode_source_ucs2`: the units and `CONV_REQMANGLE`.  Each round but the last skips a byte. -/
def decodeSourceUcs2 (flags : Flags) : ℕ → List UInt8 → ℕ → Option (List ℕ × Bool)
  | 0, _, _ => none
  | n + 1, src, room =>
    let p := utf8Pull src room
    match p.error with
    | none => some (p.units, false)
    | some .toobig => none
    | some _ =>
      if flags.ignore then some (p.units, true)
      else if flags.eilseq then
        if room ≤ p.units.length then none
        else
          (decodeSourceUcs2 flags n (p.rest.drop 1) (room - p.units.length - 1)).map fun r =>
            (p.units ++ ignoreChar :: r.1, r.2)
      else none

/-- `emit_filename_chars`, on one unit: a slash of the client is a colon on disk. -/
def emitFilenameChar : Direction → ℕ → ℕ
  | .toDisk, c => if c = 0x2F then 0x3A else c
  | .toClient, c => if c = 0x3A then 0x2F else c

section
variable (T : Tables)

/-- A UTF8-MAC name is decomposed, one on disk precomposed. -/
def normalizeW : Direction → List ℕ → ℕ → Option (List ℕ)
  | .toDisk => precomposeW T
  | .toClient => decomposeW T

/-- The bytes and `CONV_REQMANGLE`, or none for -1.  The buffers have room for `MAXPATHLEN + 1`
units and `MAXPATHLEN` bytes. -/
def convertCharset (dir : Direction) (flags : Flags) (src : Name) : Option (Name × Bool) :=
  match decodeSourceUcs2 flags (src.length + 1) src (maxpathlen + 1) with
  | none => none
  | some (decoded, reqmangle) =>
    if decoded = [] then some ([], reqmangle)
    else
      ((normalizeW T dir (decoded.map (emitFilenameChar dir)) (maxpathlen + 1)).bind fun u =>
        utf8Push u maxpathlen).map fun bs => (bs, reqmangle)

/-- What `mtoupath` takes for a mangled name: the name of an object in the directory. -/
def demangled (vol : Volume) (env : Lookups) (did : Cnid) (mpath : Name) : Option Name :=
  if did = 0 then none else (privateDemangle vol env mpath did false).map Prod.fst

/-- `mtoupath` for a UTF8-MAC name, or none for NULL. -/
def mtoupath (vol : Volume) (env : Lookups) (eilseq : Bool) (did : Cnid) (mpath : Name) :
    Option Name :=
  if mpath = [] then some [0x2E]
  else
    match demangled vol env did mpath with
    | some m => some m
    | none => (convertCharset T .toDisk ⟨false, eilseq⟩ mpath).map Prod.fst

/-- `utompath` converts the names of the volume as UTF-8. -/
structure Utf8Volume (vol : Volume) (eilseq : Bool) : Prop where
  utomFlags : vol.utomFlags &&& convReqmangle = 0
  convert : ∀ u, vol.convertCharset .vol .utf8Mac .mac u (maxpathlen + 2) vol.utomFlags =
    (convertCharset T .toClient ⟨true, eilseq⟩ u).map fun r =>
      (r.1, if r.2 then vol.utomFlags ||| convReqmangle else vol.utomFlags)

end

/-! ### Names as words -/

/-- The characters of a string of units. -/
def letters : List ℕ → List Letter
  | [] => []
  | [c] => [.unit c]
  | c :: d :: us =>
    if High c ∧ Low d then .pair (c * 0x10000 + d) :: letters us
    else .unit c :: letters (d :: us)

/-- The name leads back to itself: it is not empty, and no character of it composes with the first
part of the next one. -/
def Stable (T : Tables) (u : Name) : Prop :=
  u ≠ [] ∧ Apart (joinLetters T) (decomposeLetter T) (letters (utf8Pull u u.length).units)

instance (T : Tables) (u : Name) : Decidable (Stable T u) :=
  inferInstanceAs (Decidable (_ ∧ List.IsChain _ _))

variable {c room : ℕ} {did id : Cnid} {eilseq reqmangle : Bool} {env : Lookups} {flags : Flags}
  {l : Letter} {ls : List Letter} {m shown u : Name} {vol : Volume}

theorem letters_unit (h : ¬ High c) (us : List ℕ) : letters (c :: us) = .unit c :: letters us := by
  cases us with
  | nil => rfl
  | cons => rw [letters, if_neg fun hp => h hp.1]

theorem letters_units (hls : ∀ l ∈ ls, l.Valid) : letters (units ls) = ls := by
  induction ls with
  | nil => rfl
  | cons l ls ih =>
    obtain ⟨hl, hrest⟩ := forall_mem_cons.mp hls
    cases l with
    | unit =>
      rw [units_cons, Letter.units, singleton_append, letters_unit hl.not_high, ih hrest]
    | pair =>
      rw [units_cons, Letter.units, cons_append, singleton_append, letters,
        if_pos ⟨hl.1, hl.2⟩, pair_eq, ih hrest]

theorem Letter.Valid.zero_not_mem (h : l.Valid) : (0 : UInt8) ∉ l.encode := by
  have hne : ∀ {n : ℕ}, 0 < n → n < 256 → (0 : UInt8) ≠ UInt8.ofNat n := by
    intro n hpos hlt heq
    have := congrArg UInt8.toNat heq
    rw [toNat_ofNat_of_lt hlt] at this
    exact hpos.ne this
  have htrail : ∀ c shift, (0 : UInt8) ≠ trailByte c shift := fun c shift => by
    exact hne (by omega) (by omega)
  cases l with
  | unit c =>
    rw [Valid] at h
    rw [encode, encodeUnit]
    split_ifs with h₁ h₂
    · rw [mem_singleton]
      exact hne (by omega) (by omega)
    · rw [mem_pair, not_or]
      exact ⟨hne (by omega) (by omega), htrail _ _⟩
    · rw [mem_cons, mem_pair, not_or, not_or]
      exact ⟨hne (by omega) (by omega), htrail _ _, htrail _ _⟩
  | pair sp =>
    rw [encode, encodePair, mem_cons, mem_cons, mem_pair, not_or, not_or, not_or]
    exact ⟨hne (by omega) (by omega), htrail _ _, htrail _ _, htrail _ _⟩

theorem cstr_encode (hls : ∀ l ∈ ls, l.Valid) : cstr (encode ls) = encode ls := by
  refine takeWhile_eq_self_iff.mpr fun b hb => decide_eq_true ?_
  rintro rfl
  obtain ⟨l, hl, hb⟩ := mem_flatMap.mp hb
  exact (hls l hl).zero_not_mem hb

theorem encode_eq_nil : encode ls = [] ↔ ls = [] := by
  refine ⟨fun h => ?_, fun h => by rw [h, encode_nil]⟩
  cases ls with
  | nil => rfl
  | cons l ls =>
    have hpos := l.length_encode_pos
    have hlen := congrArg List.length h
    rw [encode_cons, length_append, length_nil] at hlen
    omega

/-- `emit_filename_chars` on a character. -/
def Letter.swap (dir : Direction) : Letter → Letter
  | unit c => unit (emitFilenameChar dir c)
  | pair sp => pair sp

theorem Letter.Valid.swap (h : l.Valid) (dir : Direction) : (l.swap dir).Valid := by
  cases l with
  | unit =>
    cases dir with
    | toDisk | toClient =>
      rw [Letter.swap, emitFilenameChar]
      split_ifs
      · exact .inl ⟨by decide, by decide⟩
      · exact h
  | pair => exact h

theorem emitFilenameChar_of_le (dir : Direction) (h : 0x40 ≤ c) : emitFilenameChar dir c = c := by
  cases dir with
  | toDisk | toClient => exact if_neg (by omega)

theorem map_emitFilenameChar (hls : ∀ l ∈ ls, l.Valid) (dir : Direction) :
    (units ls).map (emitFilenameChar dir) = units (ls.map (Letter.swap dir)) := by
  induction ls with
  | nil => rfl
  | cons l ls ih =>
    obtain ⟨hl, hls⟩ := forall_mem_cons.mp hls
    rw [map_cons, units_cons, units_cons, map_append, ih hls]
    cases l with
    | unit => rfl
    | pair sp =>
      obtain ⟨⟨h₁, -⟩, h₂, -⟩ := hl
      rw [Letter.units, map_cons, map_singleton,
        emitFilenameChar_of_le dir (by omega), emitFilenameChar_of_le dir (by omega),
        Letter.swap, Letter.units]

theorem length_units_swap (ls : List Letter) (dir : Direction) :
    (units (ls.map (Letter.swap dir))).length = (units ls).length := by
  induction ls with
  | nil => rfl
  | cons l ls ih =>
    rw [map_cons, units_cons, units_cons, length_append, length_append, ih]
    cases l <;> rfl

/-! ### A conversion of a word -/

theorem decodeSourceUcs2_encode (hls : ∀ l ∈ ls, l.Valid) (flags : Flags) (n : ℕ) :
    decodeSourceUcs2 flags (n + 1) (encode ls) room =
      if (units ls).length ≤ room then some (units ls, false) else none := by
  have hls := fun l hl => (hls l hl).read
  rw [decodeSourceUcs2]
  by_cases h : (units ls).length ≤ room
  · rw [if_pos h, utf8Pull_encode hls h]
  · rw [if_neg h, error_utf8Pull_encode hls (lt_of_not_ge h)]

theorem units_ne_nil (hne : ls ≠ []) : units ls ≠ [] := by
  obtain ⟨l, ls, rfl⟩ := exists_cons_of_ne_nil hne
  intro heq
  have hlen := congrArg List.length heq
  have hpos := l.length_units_pos
  rw [units_cons, length_append, length_nil] at hlen
  omega

/-- A word that does not fit into the buffer is refused; another one is normalized and written. -/
theorem convertCharset_encode (T : Tables) (hls : ∀ l ∈ ls, l.Valid) (hne : ls ≠ [])
    (dir : Direction) (flags : Flags) : convertCharset T dir flags (encode ls) =
      if (units ls).length ≤ maxpathlen + 1 then
        ((normalizeW T dir (units (ls.map (Letter.swap dir))) (maxpathlen + 1)).bind fun u =>
          utf8Push u maxpathlen).map fun bs => (bs, false)
      else none := by
  rw [convertCharset, decodeSourceUcs2_encode hls]
  split_ifs with h
  · dsimp only
    rw [if_neg (units_ne_nil hne), map_emitFilenameChar hls]
  · rfl

section good
variable {T : Tables}

theorem Tables.Good.precomposeW_units (hT : T.Good) (hls : ∀ l ∈ ls, l.Valid) (hne : ls ≠ [])
    (hroom : (units ls).length ≤ room) : precomposeW T (units ls) room =
      if (units (composeWord (joinLetters T) ls)).length < room then
        some (units (composeWord (joinLetters T) ls))
      else none := by
  obtain ⟨l, ls, rfl⟩ := exists_cons_of_ne_nil hne
  obtain ⟨hl, hrest⟩ := forall_mem_cons.mp hls
  have hloop := hT.precomposeLoop_units hl hrest
  rw [composeWord, ← hloop]
  cases l with
  | unit =>
    rw [units_cons, Letter.units, singleton_append] at hroom ⊢
    rw [length_cons] at hroom
    rw [precomposeW, if_neg hroom.not_gt]
  | pair =>
    rw [units_cons, Letter.units, cons_append, singleton_append] at hroom ⊢
    rw [length_cons] at hroom
    rw [precomposeW, if_neg hroom.not_gt, hT.precomposeLoop_enter hl (units_lt hrest)]

/-! ### The name on disk -/

/-- What a name on disk that came from a client is made of. -/
structure DiskWord (u : Name) (ls : List Letter) : Prop where
  valid : ∀ l ∈ ls, l.Valid
  clean : ∀ l ∈ ls, l.Clean
  eq : u = encode ls
  length_le : u.length ≤ maxpathlen

theorem Letter.swap_toDisk_ne (l : Letter) : l.swap .toDisk ≠ .unit 0x2F := by
  cases l with
  | unit =>
    rw [swap, emitFilenameChar]
    split_ifs with h
    · decide
    · exact fun heq => h (unit.inj heq)
  | pair => exact fun heq => by cases heq

theorem Tables.Good.mem_composeWord (hT : T.Good) {w : Letter} (hls : ∀ l ∈ ls, l.Valid)
    (hw : w ∈ composeWord (joinLetters T) ls) : w ∈ ls ∨ w.Valid ∧ w.Clean := by
  rcases GreedyJoin.mem_composeWord hw with hw | ⟨a, b, hb, hj⟩
  · exact .inl hw
  · exact .inr (hT.clean_of_join (hls b hb) hj)

theorem Tables.Good.exists_diskWord (hT : T.Good) (hm : WellFormed m) (hne : m ≠ [])
    (h : convertCharset T .toDisk flags m = some (u, reqmangle)) : ∃ ls, DiskWord u ls := by
  obtain ⟨ls, hls, rfl⟩ := hm
  have hls' : ∀ l ∈ ls.map (Letter.swap .toDisk), l.Valid :=
    List.forall_mem_map.mpr fun l hl => (hls l hl).swap _
  rw [convertCharset_encode T hls (mt encode_eq_nil.mpr hne)] at h
  split_ifs at h with hfit
  obtain ⟨bs, hbs, heq⟩ := map_eq_some_iff.mp h
  cases heq
  obtain ⟨us, hus, hpush⟩ := bind_eq_some_iff.mp hbs
  rw [normalizeW, hT.precomposeW_units hls' (by simpa using mt encode_eq_nil.mpr hne)
    (by rw [length_units_swap]; exact hfit)] at hus
  split_ifs at hus with hroom
  cases hus
  have hword : ∀ l ∈ composeWord (joinLetters T) (ls.map (Letter.swap .toDisk)),
      l.Valid ∧ l ≠ .unit 0x2F := by
    intro l hl
    rcases hT.mem_composeWord hls' hl with hl | ⟨hv, hc⟩
    · refine ⟨hls' l hl, ?_⟩
      obtain ⟨l', -, rfl⟩ := List.mem_map.mp hl
      exact l'.swap_toDisk_ne
    · exact ⟨hv, hc.2.2⟩
  obtain ⟨hvalid, henc, hlen⟩ := utf8Push_some (fun l hl => (hword l hl).1.loose) hpush
  refine ⟨plain (composeWord (joinLetters T) (ls.map (Letter.swap .toDisk))), ?_, ?_, henc, hlen⟩
  · exact fun l hl => hvalid l (mem_plain.mp hl).1
  · intro l hl
    obtain ⟨hl, hb⟩ := mem_plain.mp hl
    exact ⟨(hvalid l hl).loose, hb, (hword l hl).2⟩

/-! ### The name that is shown -/

/-- The characters of the name that a client is shown. -/
def shownWord (T : Tables) (ls : List Letter) : List Letter :=
  spread (decomposeLetter T) (ls.map (Letter.swap .toClient))

theorem Letter.swap_toClient_of_ne (h : l ≠ .unit 0x3A) : l.swap .toClient = l := by
  cases l with
  | unit => exact congrArg unit (if_neg fun hc => h (congrArg unit hc))
  | pair => rfl

theorem Letter.swap_toDisk_of_ne (h : l ≠ .unit 0x2F) : l.swap .toDisk = l := by
  cases l with
  | unit => exact congrArg unit (if_neg fun hc => h (congrArg unit hc))
  | pair => rfl

/-- The parts of a character that is shown are written as they are. -/
theorem Tables.Good.loose_shown (hT : T.Good) (hl : l.Clean) :
    ∀ w ∈ (decomposeLetter T (l.swap .toClient)).1 :: (decomposeLetter T (l.swap .toClient)).2,
      w.Loose ∧ ¬ w.Bidi := by
  by_cases hcolon : l = .unit 0x3A
  · subst hcolon
    intro w hw
    have hslash : w = .unit 0x2F := mem_singleton.mp hw
    subst hslash
    exact ⟨.inl ⟨by decide, by decide⟩, by decide⟩
  · rw [Letter.swap_toClient_of_ne hcolon]
    intro w hw
    exact ⟨(hT.clean_decomposeLetter hl w hw).1, (hT.clean_decomposeLetter hl w hw).2.1⟩

/-- On the way back to the disk the parts of a character are those that it has there. -/
theorem Tables.Good.swap_shown (hT : T.Good) (hl : l.Clean) :
    ((decomposeLetter T (l.swap .toClient)).1 :: (decomposeLetter T (l.swap .toClient)).2).map
        (Letter.swap .toDisk) =
      (decomposeLetter T l).1 :: (decomposeLetter T l).2 := by
  by_cases hcolon : l = .unit 0x3A
  · subst hcolon
    rfl
  · rw [Letter.swap_toClient_of_ne hcolon]
    refine (map_congr_left fun w hw => ?_).trans (List.map_id _)
    exact Letter.swap_toDisk_of_ne (hT.clean_decomposeLetter hl w hw).2.2

theorem Tables.Good.map_swap_shownWord (hT : T.Good) (hls : ∀ l ∈ ls, l.Clean) :
    (shownWord T ls).map (Letter.swap .toDisk) = spread (decomposeLetter T) ls := by
  rw [shownWord, spread, flatMap_map, map_flatMap]
  exact flatMap_congr fun l hl => hT.swap_shown (hls l hl)

/-- A name from a client is shown in its decomposed characters. -/
theorem Tables.Good.convertCharset_toClient (hT : T.Good) {bs : Name} (hu : DiskWord u ls)
    (hne : ls ≠ [])
    (h : convertCharset T .toClient flags u = some (bs, reqmangle)) :
    (∀ l ∈ shownWord T ls, l.Valid) ∧ bs = encode (shownWord T ls) := by
  obtain ⟨hvalid, hclean, rfl, -⟩ := hu
  have hls' : ∀ l ∈ ls.map (Letter.swap .toClient), l.Valid :=
    List.forall_mem_map.mpr fun l hl => (hvalid l hl).swap _
  rw [convertCharset_encode T hvalid hne] at h
  split_ifs at h with hfit
  obtain ⟨bs', hbs, heq⟩ := map_eq_some_iff.mp h
  cases heq
  obtain ⟨us, hus, hpush⟩ := bind_eq_some_iff.mp hbs
  rw [normalizeW, decomposeW, if_neg (units_ne_nil (mt map_eq_nil_iff.mp hne)),
    decomposeLoop_units hls'] at hus
  dsimp only at hus
  split_ifs at hus with hroom
  cases hus
  have hparts : ∀ w ∈ shownWord T ls, w.Loose ∧ ¬ w.Bidi := by
    intro w hw
    obtain ⟨l', hl', hw⟩ := mem_flatMap.mp hw
    obtain ⟨l, hl, rfl⟩ := List.mem_map.mp hl'
    exact hT.loose_shown (hclean l hl) w hw
  obtain ⟨hv, henc, -⟩ := utf8Push_some (fun w hw => (hparts w hw).1) hpush
  rw [plain_eq_self fun w hw => (hparts w hw).2] at henc
  exact ⟨hv, henc⟩

/-! ### The way back -/

theorem shownWord_ne_nil (hne : ls ≠ []) : shownWord T ls ≠ [] := by
  obtain ⟨l, ls, rfl⟩ := exists_cons_of_ne_nil hne
  exact cons_ne_nil _ _

/-- The shown name converts to the name on disk exactly if the characters stay apart. -/
theorem Tables.Good.convertCharset_shown_iff (hT : T.Good) {flags : Flags} {u : Name}
    {ls : List Letter} (hu : DiskWord u ls) (hne : ls ≠ []) (hshown : ∀ l ∈ shownWord T ls, l.Valid)
    (hlen : (encode (shownWord T ls)).length ≤ maxpathlen) :
    (convertCharset T .toDisk flags (encode (shownWord T ls))).map Prod.fst = some u ↔
      Apart (joinLetters T) (decomposeLetter T) ls := by
  obtain ⟨hvalid, hclean, rfl, hulen⟩ := hu
  have hfit : (units (shownWord T ls)).length ≤ maxpathlen + 1 := by
    have := length_units_le (shownWord T ls)
    omega
  have hback := hT.map_swap_shownWord hclean
  have hparts : ∀ w ∈ spread (decomposeLetter T) ls, w.Valid := by
    rw [← hback]
    exact List.forall_mem_map.mpr fun l hl => (hshown l hl).swap _
  have hnb : ∀ w ∈ spread (decomposeLetter T) ls, ¬ w.Bidi := by
    intro w hw
    obtain ⟨l, hl, hw⟩ := mem_flatMap.mp hw
    exact (hT.clean_decomposeLetter (hclean l hl) w hw).2.1
  have hpartsNe : spread (decomposeLetter T) ls ≠ [] := by
    rw [← hback]
    exact fun h => shownWord_ne_nil hne (map_eq_nil_iff.mp h)
  obtain ⟨rank, hrank⟩ := hT.exists_rank
  rw [← composeWord_spread_iff (fun y hy a b => hrank a y b (hparts y hy))
    fun y _ => hT.joinAll_decomposeLetter y]
  have hpartsFit : (units (spread (decomposeLetter T) ls)).length ≤ maxpathlen + 1 := by
    rw [← hback, length_units_swap]
    exact hfit
  rw [convertCharset_encode T hshown (shownWord_ne_nil hne), if_pos hfit, hback, normalizeW,
    hT.precomposeW_units hparts hpartsNe hpartsFit, Option.map_map]
  have hword : ∀ w ∈ composeWord (joinLetters T) (spread (decomposeLetter T) ls),
      w.Valid ∧ ¬ w.Bidi := by
    intro w hw
    rcases hT.mem_composeWord hparts hw with hw | ⟨hv, hc⟩
    · exact ⟨hparts w hw, hnb w hw⟩
    · exact ⟨hv, hc.2.1⟩
  constructor
  · intro h
    obtain ⟨bs, hbs, heq⟩ := map_eq_some_iff.mp h
    obtain ⟨us, hus, hpush⟩ := bind_eq_some_iff.mp hbs
    split_ifs at hus with hroom
    cases hus
    obtain ⟨hv, henc, -⟩ := utf8Push_some (fun w hw => (hword w hw).1.loose) hpush
    rw [plain_eq_self fun w hw => (hword w hw).2] at henc
    exact encode_inj (fun w hw => (hv w hw).read) (fun w hw => (hvalid w hw).read)
      (henc.symm.trans heq)
  · intro h
    have hroom : (units ls).length < maxpathlen + 1 := by
      have := length_units_le ls
      omega
    rw [h, if_pos hroom, bind_some,
      utf8Push_units (fun l hl => (hvalid l hl).scalar) (fun l hl => (hclean l hl).2.1) hulen]
    rfl

/-- A name that `mtoupath` converts. -/
theorem Tables.Good.exists_diskWord_mtoupath (hT : T.Good) (hm : WellFormed m)
    (hdirect : demangled vol env did m = none)
    (hu : mtoupath T vol env eilseq did m = some u) : ∃ ls, DiskWord u ls := by
  rw [mtoupath] at hu
  split_ifs at hu with hne
  · cases hu
    refine ⟨[.unit 0x2E], ?_, ?_, rfl, by decide⟩
    · exact forall_mem_singleton.mpr (.inl ⟨by decide, by decide⟩)
    · exact forall_mem_singleton.mpr ⟨.inl ⟨by decide, by decide⟩, by decide, by decide⟩
  · rw [hdirect] at hu
    obtain ⟨r, hr, rfl⟩ := map_eq_some_iff.mp hu
    exact hT.exists_diskWord hm hne hr

theorem Utf8Volume.eq_of_shown (hvol : Utf8Volume T vol eilseq)
    (hneed : needsMangling vol u true = false)
    (hshown : utompath vol u id true = some shown) :
    ∃ bs, convertCharset T .toClient ⟨true, eilseq⟩ u = some (bs, false) ∧
      bs.length ≤ utf8filelenEarly ∧ shown = cstr bs := by
  have hcharset : clientCharset true = .utf8Mac := rfl
  rw [needsMangling, hcharset, hvol.convert] at hneed
  rw [utompath, hcharset, hvol.convert] at hshown
  cases hc : convertCharset T .toClient ⟨true, eilseq⟩ u with
  | none =>
    rw [hc] at hneed
    cases hneed
  | some r =>
    obtain ⟨bs, reqmangle⟩ := r
    rw [hc] at hneed hshown
    simp only [map_some, Bool.or_eq_false_iff, decide_eq_false_iff_not,
      not_lt] at hneed
    obtain ⟨hflags, hlen⟩ := hneed
    cases reqmangle with
    | true =>
      have hreq : (vol.utomFlags ||| convReqmangle) &&& convReqmangle = convReqmangle := by
        apply UInt16.toBitVec_inj.mp
        ext i
        simpa using .inr
      rw [if_pos rfl, hreq] at hflags
      exact absurd hflags (by decide)
    | false =>
      refine ⟨bs, rfl, hlen, ?_⟩
      simp only [map_some, Bool.false_eq_true, if_false, hvol.utomFlags, ne_eq,
        not_true_eq_false, decide_false, mangle] at hshown
      rw [if_pos ⟨trivial, hlen⟩] at hshown
      exact (some.inj hshown).symm

theorem demangled_nil (vol : Volume) (env : Lookups) (did : Cnid) :
    demangled vol env did [] = none := by
  rw [demangled]
  split_ifs with h
  · rfl
  · rfl

/-- The name that was shown for `u` leads to `u`: because it is that of an object in the directory
whose mangled name it is, or because it converts to `u`. -/
theorem Tables.Good.mtoupath_shown_iff (hT : T.Good) (hvol : Utf8Volume T vol eilseq)
    (hm : WellFormed m) (hdirect : demangled vol env did m = none)
    (hu : mtoupath T vol env eilseq did m = some u) (hneed : needsMangling vol u true = false)
    (hshown : utompath vol u id true = some shown) : mtoupath T vol env eilseq did shown = some u ↔
      demangled vol env did shown = some u ∨
        demangled vol env did shown = none ∧ Stable T u := by
  obtain ⟨ls, hword⟩ := hT.exists_diskWord_mtoupath hm hdirect hu
  obtain ⟨bs, hbs, hlen, rfl⟩ := hvol.eq_of_shown hneed hshown
  by_cases hne : ls = []
  · -- nothing is left of the name
    have hnil : u = [] := hword.eq.trans (encode_eq_nil.mpr hne)
    subst hnil
    cases hbs
    have hcstr : cstr [] = [] := rfl
    rw [hcstr, demangled_nil, mtoupath, if_pos rfl]
    refine iff_of_false (by decide) ?_
    rintro (h | ⟨-, h⟩)
    · cases h
    · exact h.1 rfl
  obtain ⟨hvalid, rfl⟩ := hT.convertCharset_toClient hword hne hbs
  have hlimit : utf8filelenEarly ≤ maxpathlen := by decide
  have hback := @Tables.Good.convertCharset_shown_iff T hT ⟨false, eilseq⟩ u ls hword hne hvalid
    (hlen.trans hlimit)
  have hstable : Stable T u ↔ Apart (joinLetters T) (decomposeLetter T) ls := by
    rw [Stable, hword.eq, utf8Pull_encode (fun l hl => (hword.valid l hl).read)
      (length_units_le ls), letters_units hword.valid]
    exact and_iff_right (mt encode_eq_nil.mp hne)
  rw [cstr_encode hvalid, mtoupath, if_neg (mt encode_eq_nil.mp (shownWord_ne_nil hne)), hstable]
  cases hd : demangled vol env did (encode (shownWord T ls)) with
  | some => simp
  | none => simpa using hback

end good

/-- On a UTF-8 volume without case folding, the name that `utompath` shows for a name from a client
leads back to it exactly if the shown name is the mangled name of that object, or is no mangled name
and the name on disk is `Stable`. -/
theorem mtoupath_utompath_iff {vol : Volume} {env : Lookups} {eilseq : Bool} {did id : Cnid}
    {m u shown : Name} (hvol : Utf8Volume tables vol eilseq) (hm : WellFormed m)
    (hdirect : demangled vol env did m = none) (hu : mtoupath tables vol env eilseq did m = some u)
    (hneed : needsMangling vol u true = false) (hshown : utompath vol u id true = some shown) :
    mtoupath tables vol env eilseq did shown = some u ↔
      demangled vol env did shown = some u ∨
        demangled vol env did shown = none ∧ Stable tables u :=
  tables_good.mtoupath_shown_iff hvol hm hdirect hu hneed hshown

/-! ### A volume -/

theorem length_utf8Push {us : List ℕ} {bs : List UInt8}
    (h : utf8Push us room = some bs) : bs.length ≤ room := by
  fun_induction utf8Push us room generalizing bs with
  | case1 room =>
    cases h
    exact Nat.zero_le room
  | case3 uc us room hzero hbidi ih => exact ih h
  | case6 uc room hzero hbidi hs hroom low us hpair ih =>
    obtain ⟨bs', hbs', rfl⟩ := map_eq_some_iff.mp h
    have hlen := ih hbs'
    have hfour : (encodePair uc low).length = 4 := rfl
    rw [length_append]
    omega
  | case9 uc us room hzero hbidi hs hroom ih =>
    obtain ⟨bs', hbs', rfl⟩ := map_eq_some_iff.mp h
    have hlen := ih hbs'
    rw [length_append]
    omega
  | _ => cases h

theorem length_convertCharset {T : Tables} {dir : Direction} {src : Name}
    {r : Name × Bool} (h : convertCharset T dir flags src = some r) : r.1.length ≤ maxpathlen := by
  rw [convertCharset] at h
  cases hd : decodeSourceUcs2 flags (src.length + 1) src (maxpathlen + 1) with
  | none =>
    rw [hd] at h
    cases h
  | some =>
    rw [hd] at h
    dsimp only at h
    split_ifs at h with hnil
    · cases h
      exact zero_le
    · obtain ⟨bs, hbs, rfl⟩ := map_eq_some_iff.mp h
      obtain ⟨us, -, hpush⟩ := bind_eq_some_iff.mp hbs
      exact length_utf8Push hpush

/-- `CONV_IGNORE`. -/
def convIgnore : UInt16 := 1

/-- A UTF-8 volume in a session of AFP 3.  The conversions with which `mangle` shortens a name
fail on it. -/
def utf8Volume : Volume where
  utf8Encoding := true
  kTextEncoding := 0x08000103
  utomFlags := convIgnore
  convertCharset _ toSet _ src destLen flags :=
    if toSet = .utf8Mac ∧ destLen = maxpathlen + 2 ∧ flags = convIgnore then
      (convertCharset tables .toClient ⟨true, false⟩ src).map fun r =>
        (r.1, if r.2 then flags ||| convReqmangle else flags)
    else none
  length_convertCharset h := by
    split_ifs at h with hcall
    obtain ⟨r, hr, heq⟩ := Option.map_eq_some_iff.mp h
    cases heq
    rw [hcall.2.1]
    exact Nat.add_le_add_right (length_convertCharset hr) 2
  head_convertCharset h := by
    split_ifs at h with hcall
    exact absurd hcall.2.2 (by decide)

theorem utf8Volume_utf8 : Utf8Volume tables utf8Volume false where
  utomFlags := by decide
  convert u := by simp only [utf8Volume, and_self, if_true]

/-- A directory without objects. -/
def noLookups : Lookups where
  dircacheLookupDid _ := none
  pfdOstat _ := none
  cnidResolve _ := none
  demangleChecks _ _ _ _ := false

/-- A name with an accent, a Korean syllable and a slash: `é`, U+D55C and `/`. -/
def accentedName : Name := [0xC3, 0xA9, 0xED, 0x95, 0x9C, 0x2F]

theorem accentedName_wellFormed : WellFormed accentedName :=
  ⟨[.unit 0xE9, .unit 0xD55C, .unit 0x2F], by decide, by decide⟩

/-- The client is shown `e` with U+0301, the jamos and the slash, which lead back. -/
theorem mtoupath_utompath_accentedName : mtoupath tables utf8Volume noLookups false 2 accentedName =
        some [0xC3, 0xA9, 0xED, 0x95, 0x9C, 0x3A] ∧
      utompath utf8Volume [0xC3, 0xA9, 0xED, 0x95, 0x9C, 0x3A] 17 true =
        some [0x65, 0xCC, 0x81, 0xE1, 0x84, 0x92, 0xE1, 0x85, 0xA1, 0xE1, 0x86, 0xAB, 0x2F] ∧
      mtoupath tables utf8Volume noLookups false 2
          [0x65, 0xCC, 0x81, 0xE1, 0x84, 0x92, 0xE1, 0x85, 0xA1, 0xE1, 0x86, 0xAB, 0x2F] =
        some [0xC3, 0xA9, 0xED, 0x95, 0x9C, 0x3A] := by
  have hu : mtoupath tables utf8Volume noLookups false 2 accentedName =
      some [0xC3, 0xA9, 0xED, 0x95, 0x9C, 0x3A] := by decide +kernel
  have hshown : utompath utf8Volume [0xC3, 0xA9, 0xED, 0x95, 0x9C, 0x3A] 17 true =
      some [0x65, 0xCC, 0x81, 0xE1, 0x84, 0x92, 0xE1, 0x85, 0xA1, 0xE1, 0x86, 0xAB, 0x2F] := by
    decide +kernel
  refine ⟨hu, hshown, ?_⟩
  exact (mtoupath_utompath_iff utf8Volume_utf8 accentedName_wellFormed (by decide +kernel) hu
    (by decide +kernel) hshown).mpr (.inr ⟨by decide +kernel, by decide +kernel⟩)

/-- U+0344 is no combining character of the tables, but is taken apart into two: after U+03B9 it is
shown as U+0308 and U+0301, and these compose with U+03B9 to U+0390. -/
theorem mtoupath_utompath_dialytika : WellFormed [0xCE, 0xB9, 0xCD, 0x84] ∧
      demangled utf8Volume noLookups 2 [0xCE, 0xB9, 0xCD, 0x84] = none ∧
      mtoupath tables utf8Volume noLookups false 2 [0xCE, 0xB9, 0xCD, 0x84] =
        some [0xCE, 0xB9, 0xCD, 0x84] ∧
      needsMangling utf8Volume [0xCE, 0xB9, 0xCD, 0x84] true = false ∧
      utompath utf8Volume [0xCE, 0xB9, 0xCD, 0x84] 17 true =
        some [0xCE, 0xB9, 0xCC, 0x88, 0xCC, 0x81] ∧
      mtoupath tables utf8Volume noLookups false 2 [0xCE, 0xB9, 0xCC, 0x88, 0xCC, 0x81] =
        some [0xCE, 0x90] :=
  ⟨⟨[.unit 0x3B9, .unit 0x344], by decide, by decide⟩, by decide +kernel, by decide +kernel,
    by decide +kernel, by decide +kernel, by decide +kernel⟩

/-- The bidi hint U+202A keeps `a` and U+0301 apart until it is left out on disk. -/
example :
    mtoupath tables utf8Volume noLookups false 2 [0x61, 0xE2, 0x80, 0xAA, 0xCC, 0x81] =
        some [0x61, 0xCC, 0x81] ∧
      utompath utf8Volume [0x61, 0xCC, 0x81] 17 true = some [0x61, 0xCC, 0x81] ∧
      mtoupath tables utf8Volume noLookups false 2 [0x61, 0xCC, 0x81] = some [0xC3, 0xA1] := by
  decide +kernel

end Netatalk.Unicode
