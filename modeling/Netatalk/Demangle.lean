import Netatalk.Mangle

/-! # Demangling

A mangled name is some start, `#`, the CNID and an extension of at most five bytes
(`utompath_of_needsMangling`), so the last fourteen bytes of the name hold its `#`, where `demangle`
finds the CNID again.  A `#` further to the right can be tried first, and counts only if its object
has the same name for the client.  `demangle_shown` puts this together for the names of a session
in its own encoding; `longName_not_demangled` is the long name of an AFP 3 session, which only
`demangle_osx` takes. -/

namespace Netatalk.Mangle

open List Bytes HexNumber

variable {vol : Volume}

/-! ### The shape of a mangled name -/

theorem length_cstr_le (bs : List UInt8) : (cstr bs).length ≤ bs.length :=
  (takeWhile_sublist _).length_le

variable {e p u : Name} {first hash n : ℕ} {id : Cnid} {o : Cnid × Name} {utf8 : Bool}

theorem strrchr_eq_some {c : UInt8} {s : Name} (h : strrchr c s = some p) : ∃ t, p = c :: t := by
  induction s with
  | nil => cases h
  | cons b bs ih =>
    rw [strrchr] at h
    cases hbs : strrchr c bs with
    | some =>
      rw [hbs] at h
      exact ih (hbs.trans h)
    | none =>
      simp only [hbs] at h
      split_ifs at h with hb
      cases h
      exact ⟨bs, by rw [hb]⟩

/-- An extension behind the CNID: at most five bytes, from a dot on. -/
structure IsExtension (e : Name) : Prop where
  length_le : e.length ≤ maxExtLength
  head : ∀ c ∈ e.head?, c = 46

theorem IsExtension.cstr {e : List UInt8} (h : IsExtension e) : IsExtension (cstr e) := by
  refine ⟨(length_cstr_le e).trans h.length_le, fun c hc => ?_⟩
  cases e with
  | nil => cases hc
  | cons b =>
    obtain rfl : b = 46 := h.head b rfl
    simpa [Mangle.cstr] using hc.symm

theorem length_mangleExtension_le (vol : Conversion) (uname : Name) (charset : Charset) :
    (mangleExtension vol uname charset).length ≤ maxExtLength := by
  unfold mangleExtension
  cases strrchr 46 uname with
  | none => exact zero_le
  | some p =>
    dsimp only
    split_ifs
    · exact zero_le
    cases hconv : vol.convertCharset .vol charset .mac p (maxExtLength + 2)
        (convForce ||| convUnescapehex) with
    | none => exact zero_le
    | some => exact Nat.le_of_add_le_add_right (vol.length_convertCharset hconv)

theorem isExtension_mangleExtension (vol : Volume) (uname : Name) (charset : Charset) :
    IsExtension (mangleExtension vol uname charset) := by
  refine ⟨length_mangleExtension_le vol uname charset, fun c hc => ?_⟩
  unfold mangleExtension at hc
  cases hp : strrchr 46 uname with
  | none => simp [hp] at hc
  | some =>
    obtain ⟨t, rfl⟩ := strrchr_eq_some hp
    simp only [hp] at hc
    split_ifs at hc
    · cases hc
    cases hconv : vol.convertCharset .vol charset .mac (46 :: t) (maxExtLength + 2)
        (convForce ||| convUnescapehex) with
    | none => simp [hconv] at hc
    | some =>
      simp only [hconv] at hc
      rcases vol.head_convertCharset hconv with hnil | hdot
      · simp [hnil] at hc
      · simpa [hdot] using hc.symm

/-- The name is shown in another form than it converts to. -/
def needsMangling (vol : Volume) (u : Name) (utf8 : Bool) : Bool :=
  match vol.convertCharset .vol (clientCharset utf8) .mac u (maxpathlen + 2) vol.utomFlags with
  | some (m, flags) => flags &&& convReqmangle ≠ 0 || nameLimit utf8 < m.length
  | none => true

/-- The form that `mangle` builds. -/
def mangled (vol : Conversion) (filename : List UInt8) (u : Name) (id : Cnid) (utf8 : Bool) :
    Name :=
  let ext := mangleExtension vol u (clientCharset utf8)
  mangleStart vol filename u utf8 ((print id).length + 1 + ext.length) ++
    mangleChar :: (print id ++ cstr ext)

theorem mangle_eq {vol : Conversion} {filename : List UInt8} (hid : id ≠ 0) (force utf8 : Bool) :
    mangle vol filename u id force utf8 =
      if force = true ∨ nameLimit utf8 < filename.length then
        some (mangled vol filename u id utf8)
      else some (cstr filename) := by
  have hfits : (force = false ∧ filename.length ≤ nameLimit utf8) ↔
      ¬ (force = true ∨ nameLimit utf8 < filename.length) := by
    rw [not_or, Bool.not_eq_true, not_lt]
  by_cases h : force = true ∨ nameLimit utf8 < filename.length
  · rw [mangle, if_neg (mt hfits.mp (not_not_intro h)), if_neg hid, if_pos h]
    simp [mangled]
  · rw [mangle, if_pos (hfits.mpr h), if_neg h]

theorem utompath_eq (hid : id ≠ 0) (utf8 : Bool) : utompath vol u id utf8 =
      match vol.convertCharset .vol (clientCharset utf8) .mac u (maxpathlen + 2) vol.utomFlags with
      | some (m, _) =>
        if needsMangling vol u utf8 then some (mangled vol m u id utf8) else some (cstr m)
      | none => some (mangled vol [63, 63, 63] u id utf8) := by
  rw [utompath, needsMangling]
  cases vol.convertCharset .vol (clientCharset utf8) .mac u (maxpathlen + 2) vol.utomFlags with
  | none | some => simp [mangle_eq hid]

/-- A name that needs mangling is shown with its CNID. -/
theorem utompath_of_needsMangling (h : needsMangling vol u utf8 = true) (hid : id ≠ 0) :
    ∃ p e, utompath vol u id utf8 = some (p ++ mangleChar :: (print id ++ e)) ∧
      IsExtension e := by
  have he := (isExtension_mangleExtension vol u (clientCharset utf8)).cstr
  rw [utompath_eq hid]
  cases vol.convertCharset .vol (clientCharset utf8) .mac u (maxpathlen + 2) vol.utomFlags with
  | none => exact ⟨_, _, rfl, he⟩
  | some =>
    simp only [h]
    exact ⟨_, _, rfl, he⟩

theorem mangledId_print (hstart : cnidStart ≤ id) (hid : id < 2 ^ 32)
    (he : IsExtension e) : mangledId (print id ++ e) = some (id, e) := by
  have hhead : (print id ++ e).head? ≠ some 48 := by
    cases hp : print id with
    | nil =>
      intro h
      exact absurd (he.head 48 h) (by decide)
    | cons =>
      have := head_print_ne id
      rwa [hp] at this
  have hdot : ∀ c ∈ e.head?, isDigit c = false := by
    intro c hc
    rw [he.head c hc]
    decide
  rw [mangledId, if_neg hhead, scan_print (show id < 16 ^ (mangleLength - 1) from hid) hdot]
  dsimp only
  rw [if_neg]
  rintro (⟨hne, hne'⟩ | hlen | hlt)
  · cases e with
    | nil => exact hne rfl
    | cons b => exact hne' (congrArg some (he.head b rfl))
  · exact absurd he.length_le hlen.not_ge
  · exact absurd hstart hlt.not_ge

/-! ### The search -/

/-- The objects of the volume, by their CNIDs: the directory and the name on disk. -/
structure Objects where
  object : Cnid → Option (Cnid × Name)
  valid : ∀ {id o}, object id = some o → cnidStart ≤ id ∧ id < 2 ^ 32

/-- The CNID database and the dircache answer correctly. -/
structure Knows (env : Lookups) (objs : Objects) : Prop where
  cnidResolve : ∀ id, env.cnidResolve id = objs.object id
  dircache : ∀ {id dir}, env.dircacheLookupDid id = some dir → env.fresh dir = true →
    objs.object id = some (dir.dPdid, dir.dUName)

variable {env : Lookups} {objs : Objects} {m : Name} {did : Cnid} {osx : Bool}

theorem Knows.resolve_iff (hk : Knows env objs) :
    env.resolve did id = some u ↔ objs.object id = some (did, u) := by
  rw [Lookups.resolve]
  cases hdir : (env.dircacheLookupDid id).filter env.fresh with
  | some =>
    obtain ⟨hlookup, hfresh⟩ := Option.filter_eq_some_iff.mp hdir
    rw [hk.dircache hlookup hfresh]
    simp
  | none =>
    rw [hk.cnidResolve id]
    cases objs.object id with
    | none => simp
    | some => simp [Prod.ext_iff]

/-- What a turn of the search finds: an object of the directory that has the name, or one whose name
passes the checks for Mac OS X. -/
theorem Knows.of_candidate (hk : Knows env objs)
    (h : candidate vol env m did osx hash = some (u, id)) : objs.object id = some (did, u) ∧
      (utompath vol u id vol.utf8Encoding = some m ∨ osx = true) := by
  rw [candidate] at h
  split_ifs at h
  cases hid : mangledId (m.drop (hash + 1)) with
  | none => simp [hid] at h
  | some r =>
    simp only [hid] at h
    cases hres : env.resolve did r.1 with
    | none => simp [hres] at h
    | some =>
      simp only [hres] at h
      split_ifs at h with hm
      cases h
      exact ⟨hk.resolve_iff.mp hres, hm.imp_right And.left⟩

/-- The turn at the `#` of a mangled name finds its object. -/
theorem Knows.candidate_mangled (hk : Knows env objs) (hobj : objs.object id = some (did, u))
    (he : IsExtension e) (hm : m = p ++ mangleChar :: (print id ++ e))
    (hshown : utompath vol u id vol.utf8Encoding = some m) :
    candidate vol env m did osx p.length = some (u, id) := by
  have hid := mangledId_print (objs.valid hobj).1 (objs.valid hobj).2 he
  have hhash : m[p.length]? = some mangleChar := by simp [hm]
  have hdrop : m.drop (p.length + 1) = print id ++ e := by simp [hm, ← drop_drop]
  simp only [candidate, hhash, if_true, hdrop, hid, hk.resolve_iff.mpr hobj, hshown, true_or]

theorem exists_candidate_of_demangleFrom {found : Name × Cnid}
    (h : demangleFrom vol env m did osx first n = some found) :
    ∃ hash, candidate vol env m did osx hash = some found := by
  induction n with
  | zero => cases h
  | succ n ih =>
    rw [demangleFrom] at h
    cases hc : candidate vol env m did osx (first + n) with
    | some =>
      simp only [hc] at h
      exact ⟨_, hc.trans h⟩
    | none =>
      simp only [hc] at h
      exact ih h

/-- The search finds something if some turn does. -/
theorem isSome_demangleFrom (hfirst : first ≤ hash) (hn : hash < first + n)
    (hc : (candidate vol env m did osx hash).isSome) :
    (demangleFrom vol env m did osx first n).isSome := by
  induction n with
  | zero => omega
  | succ n ih =>
    rw [demangleFrom]
    cases hlast : candidate vol env m did osx (first + n) with
    | some => rfl
    | none =>
      have hne : hash ≠ first + n := by
        rintro rfl
        simp [hlast] at hc
      exact ih (by omega)

theorem hash_in_window (hid : id < 2 ^ 32) (he : IsExtension e) :
    let m := p ++ mangleChar :: (print id ++ e)
    let window := min m.length (mangleLength + maxExtLength)
    m.length - window ≤ p.length ∧ p.length < m.length - window + window := by
  have hprint : (print id).length ≤ 8 := length_print_le hid
  have hext := he.length_le
  simp only [length_append, length_cons, mangleLength] at hext ⊢
  omega

theorem Objects.ne_zero (objs : Objects) (h : objs.object id = some o) : id ≠ 0 := by
  rintro rfl
  exact absurd (objs.valid h).1 (by decide)

section
variable (hk : Knows env objs) (hobj : objs.object id = some (did, u))
  (hneed : needsMangling vol u vol.utf8Encoding = true)
  (hshown : utompath vol u id vol.utf8Encoding = some m)
include hk hobj hneed hshown

/-- The search finds an object of the directory for every mangled name that is shown, also with the
forms of Mac OS X. -/
theorem Knows.exists_privateDemangle :
    ∃ u' id', privateDemangle vol env m did osx = some (u', id') ∧
      objs.object id' = some (did, u') ∧
      (utompath vol u' id' vol.utf8Encoding = some m ∨ osx = true) := by
  obtain ⟨p, e, hform, he⟩ := utompath_of_needsMangling hneed (objs.ne_zero hobj)
  obtain rfl : m = p ++ mangleChar :: (print id ++ e) := Option.some.inj (hshown.symm.trans hform)
  have hc : (candidate vol env _ did osx p.length).isSome :=
    Option.isSome_iff_exists.mpr ⟨_, hk.candidate_mangled hobj he rfl hshown⟩
  obtain ⟨hfirst, hlast⟩ := hash_in_window (p := p) (objs.valid hobj).2 he
  obtain ⟨found, hfound⟩ := Option.isSome_iff_exists.mp (isSome_demangleFrom hfirst hlast hc)
  obtain ⟨hash, hcand⟩ := exists_candidate_of_demangleFrom hfound
  exact ⟨found.1, found.2, hfound, hk.of_candidate hcand⟩

/-- `demangle_osx` includes the exact check of `demangle`: a mangled name that was shown leads to an
object of the directory. -/
theorem Knows.demangleOsx_mangled :
    ∃ u' id', demangleOsx vol env m did = (u', some id') ∧ objs.object id' = some (did, u') := by
  obtain ⟨u', id', hfound, hobj', -⟩ := hk.exists_privateDemangle hobj hneed hshown
  exact ⟨u', id', by rw [demangleOsx, hfound], hobj'⟩

end

/-! ### Names in replies -/

/-- What the CNID and the extension take of a name. -/
theorem length_tail_le (vol : Conversion) (hid : id < 2 ^ 32) (u : Name) (charset : Charset) :
    (print id).length + 1 + (mangleExtension vol u charset).length ≤ 14 := by
  have hprint : (print id).length ≤ 8 := length_print_le hid
  have hext : (mangleExtension vol u charset).length ≤ 5 := length_mangleExtension_le vol u charset
  omega

theorem length_mangleStart_le (vol : Conversion) (filename : List UInt8) (u : Name) (utf8 : Bool)
    {tail : ℕ} (htail : tail + 3 ≤ nameLimit utf8) :
    (mangleStart vol filename u utf8 tail).length + tail ≤ nameLimit utf8 := by
  unfold mangleStart
  dsimp only
  split_ifs with hlong hnil hnil
  · simp only [length_cons, length_nil]
    omega
  · cases hconv : vol.convertCharset .vol (clientCharset utf8) .mac u (nameLimit utf8 - tail + 2)
        (convForce ||| convUnescapehex) with
    | none => simp [hconv] at hnil
    | some r =>
      have hlen := vol.length_convertCharset hconv
      have hcstr := length_cstr_le r.1
      dsimp only
      omega
  · simp only [length_cons, length_nil]
    omega
  · have hcstr := length_cstr_le filename
    omega

/-- A mangled name fits the client. -/
theorem length_mangled_le {vol : Conversion} (filename : List UInt8) (u : Name)
    (hid : id < 2 ^ 32) (utf8 : Bool) :
    (mangled vol filename u id utf8).length ≤ nameLimit utf8 := by
  have htail := length_tail_le vol hid u (clientCharset utf8)
  have hlimit : 31 ≤ nameLimit utf8 := by cases utf8 <;> decide
  have hstart := length_mangleStart_le vol filename u utf8
    ((Nat.add_le_add_right htail 3).trans (by omega))
  have hcstr := length_cstr_le (mangleExtension vol u (clientCharset utf8))
  simp only [mangled, length_append, length_cons]
  omega

/-- Where a conversion ends, or a failed one is cut. -/
theorem Conversion.length_getD_le (vol : Conversion) (fromSet toSet cap : Charset) (src : Name)
    (flags : UInt16) {room : ℕ} (hroom : 2 ≤ room) :
    ((vol.convertCharset fromSet toSet cap src room flags).map fun r => r.1.length).getD 0 + 2 ≤
      room := by
  cases hconv : vol.convertCharset fromSet toSet cap src room flags with
  | none => exact hroom
  | some => exact vol.length_convertCharset hconv

/-- A name is mangled within the limit of the client and within the buffers, and the room for its
start is not negative. -/
theorem mangle_bounded (vol : Conversion) (filename : List UInt8) (u : Name) (hid : id < 2 ^ 32)
    (force utf8 : Bool) :
    (mangleChar :: print id).length + (mangleExtension vol u (clientCharset utf8)).length ≤
        nameLimit utf8 ∧
      (∀ m ∈ mangle vol filename u id force utf8, m.length ≤ nameLimit utf8) ∧
      ∀ w ∈ mangleWrites vol filename u id force utf8, w.2.1 + w.2.2 ≤ w.1.size := by
  have htail := length_tail_le vol hid u (clientCharset utf8)
  have hlow : 31 ≤ nameLimit utf8 := by cases utf8 <;> decide
  have hhigh : nameLimit utf8 ≤ 255 := by cases utf8 <;> decide
  have hprint : (print id).length ≤ 8 := length_print_le hid
  refine ⟨by rw [length_cons]; omega, ?_, ?_⟩
  · intro m hm
    by_cases hne : id = 0
    · rw [mangle, if_pos hne] at hm
      split_ifs at hm with hfits
      · cases hm
        exact (length_cstr_le filename).trans hfits.2
      · cases hm
    rw [mangle_eq hne] at hm
    split_ifs at hm with hlong
    · cases hm
      exact length_mangled_le filename u hid utf8
    · cases hm
      exact (length_cstr_le filename).trans (Nat.not_lt.mp fun h => hlong (.inr h))
  · have hstart := @length_mangleStart_le vol filename u utf8 ((mangleChar :: print id).length +
      (mangleExtension vol u (clientCharset utf8)).length) (by rw [length_cons]; omega)
    have hcstr := length_cstr_le (mangleExtension vol u (clientCharset utf8))
    simp only [mangleWrites]
    split_ifs with hnone hlong
    · exact fun w hw => by cases hw
    · have hcut :=
        vol.length_getD_le .vol (clientCharset utf8) .mac u (convForce ||| convUnescapehex)
        (Nat.le_add_left 2 (nameLimit utf8 - ((mangleChar :: print id).length +
          (mangleExtension vol u (clientCharset utf8)).length)))
      simp only [cons_append, nil_append, forall_mem_cons, Buffer.size, maxExtLength, mangleLength,
        maxpathlen, length_cons] at hstart hcut ⊢
      exact ⟨by omega, by omega, by omega, by omega, by omega, by omega, by omega, forall_mem_nil _⟩
    · simp only [cons_append, nil_append, forall_mem_cons, Buffer.size, maxExtLength, mangleLength,
        maxpathlen, length_cons] at hstart hlong ⊢
      exact ⟨by omega, by omega, by omega, by omega, by omega, by omega, forall_mem_nil _⟩

theorem length_utompath_le {m : Name} (hne : id ≠ 0) (hid : id < 2 ^ 32)
    (h : utompath vol u id utf8 = some m) : m.length ≤ nameLimit utf8 := by
  rw [utompath_eq hne, needsMangling] at h
  cases hconv : vol.convertCharset .vol (clientCharset utf8) .mac u (maxpathlen + 2)
      vol.utomFlags with
  | none =>
    simp only [hconv] at h
    cases h
    exact length_mangled_le _ u hid utf8
  | some r =>
    simp only [hconv] at h
    split_ifs at h with hneed
    · cases h
      exact length_mangled_le _ u hid utf8
    · cases h
      simp only [Bool.or_eq_true, decide_eq_true_eq, not_or, not_lt] at hneed
      exact (length_cstr_le r.1).trans hneed.2

/-- The name in a reply, behind its length. -/
def replyName (utf8 : Bool) (data : List UInt8) : Name := data.drop (if utf8 then 6 else 1)

/-- The name of an object that the client gets, as a UTF-8 or a Mac name. -/
def shownName (vol : Volume) (u : Name) (id : Cnid) (utf8 : Bool) : Option Name :=
  (utompath vol u id vol.utf8Encoding).map fun name => replyName utf8 (setName vol name u id utf8)

theorem shownName_session (u : Name) (hne : id ≠ 0) (hid : id < 2 ^ 32) :
    shownName vol u id vol.utf8Encoding = utompath vol u id vol.utf8Encoding := by
  rw [shownName]
  cases hm : utompath vol u id vol.utf8Encoding with
  | none => rfl
  | some m =>
    have hlen := length_utompath_le hne hid hm
    cases hutf8 : vol.utf8Encoding with
    | true =>
      rw [hutf8] at hlen
      have hmin : min m.length utf8filelenEarly = m.length := min_eq_left hlen
      simp [setName, replyName, hmin, drop_append]
    | false =>
      rw [hutf8] at hlen
      have hmin : min m.length macfilelen = m.length := min_eq_left hlen
      simp [setName, replyName, hutf8, hmin]

theorem Objects.shownName_eq (objs : Objects) (h : objs.object id = some (did, u)) :
    shownName vol u id vol.utf8Encoding = utompath vol u id vol.utf8Encoding :=
  shownName_session u (objs.ne_zero h) (objs.valid h).2

/-- `demangle` of a mangled name that a client was shown, in the encoding of its session: it gives
an object of the directory that is shown under this name, and the object itself unless another one
of the directory is shown under it too. -/
theorem demangle_shown (hk : Knows env objs) {u name : Name} {id : Cnid}
    (hobj : objs.object id = some (did, u)) (hneed : needsMangling vol u vol.utf8Encoding = true)
    (hshown : shownName vol u id vol.utf8Encoding = some name) :
    ∃ id' u', objs.object id' = some (did, u') ∧
      shownName vol u' id' vol.utf8Encoding = some name ∧ demangle vol env name did = u' ∧
      ((∀ j v, objs.object j = some (did, v) → shownName vol v j vol.utf8Encoding = some name →
        j = id) → id' = id ∧ u' = u) := by
  rw [objs.shownName_eq hobj] at hshown
  obtain ⟨u', id', hfound, hobj', hexact⟩ := hk.exists_privateDemangle hobj hneed hshown
  have hshown' := hexact.resolve_right Bool.false_ne_true
  rw [← objs.shownName_eq hobj'] at hshown'
  refine ⟨id', u', hobj', hshown', by rw [demangle, hfound], fun honly => ?_⟩
  obtain rfl := honly id' u' hobj' hshown'
  rw [hobj] at hobj'
  cases hobj'
  exact ⟨rfl, rfl⟩

/-! ### A file with a long name -/

/-- A volume where the names are ASCII. -/
def asciiVolume (utf8Encoding : Bool) : Volume where
  utf8Encoding := utf8Encoding
  kTextEncoding := 0
  utomFlags := 0
  convertCharset _ _ _ src destLen flags :=
    if destLen < 2 then none else some (src.take (destLen - 2), flags)
  length_convertCharset h := by
    split_ifs at h with hlen
    cases h
    rw [List.length_take]
    omega
  head_convertCharset {_ src destLen _ _} h := by
    split_ifs at h with hlen
    cases h
    cases hn : destLen - 2 with
    | zero => exact .inl rfl
    | succ n => exact .inr rfl

/-- Forty letters and an extension. -/
def longName : Name := List.replicate 40 97 ++ [46, 116, 120, 116]

/-- The file with this name in the root is 17. -/
def longNameObjects : Objects where
  object id := if id = 17 then some (2, longName) else none
  valid h := by
    split_ifs at h with hid
    subst hid
    decide

/-- No dircache entry, and the CNID database.  A name that starts as the object's passes. -/
def coldLookups (objs : Objects) : Lookups where
  dircacheLookupDid _ := none
  pfdOstat _ := none
  cnidResolve := objs.object
  demangleChecks uname mfilename hash _ := mfilename.take hash = uname.take hash

theorem coldLookups_knows (objs : Objects) : Knows (coldLookups objs) objs where
  cnidResolve _ := rfl
  dircache h := by cases h

/-- The long name in a reply: 24 letters, `#11` and the extension. -/
def shortenedName : Name := List.replicate 24 97 ++ [35, 49, 49, 46, 116, 120, 116]

theorem longNameObjects_object
    (h : longNameObjects.object id = some o) : id = 17 ∧ o = (2, longName) := by
  simp only [longNameObjects] at h
  split_ifs at h with hid
  cases h
  exact ⟨hid, rfl⟩

theorem mangle_bounded_longName : 17 < 2 ^ 32 ∧
    ∀ w ∈ mangleWrites (asciiVolume false) longName longName 17 false false,
      w.2.1 + w.2.2 ≤ w.1.size :=
  ⟨by decide, (mangle_bounded _ longName longName (by decide) false false).2.2⟩

/-- A session before AFP 3 gets the long name and demangles it. -/
theorem demangle_shown_longName :
    shownName (asciiVolume false) longName 17 false = some shortenedName ∧
      demangle (asciiVolume false) (coldLookups longNameObjects) shortenedName 2 = longName := by
  have hshown : shownName (asciiVolume false) longName 17 false = some shortenedName := by
    decide +kernel
  obtain ⟨id', u', -, -, hfound, hitself⟩ :=
    demangle_shown (coldLookups_knows longNameObjects)
      (show longNameObjects.object 17 = some (2, longName) from rfl)
      (show needsMangling (asciiVolume false) longName false = true by decide +kernel) hshown
  refine ⟨hshown, hfound.trans (hitself fun j v hobj _ => ?_).2⟩
  exact (longNameObjects_object hobj).1

/-- An AFP 3 session gets the same long name in a reply, which `demangle` leaves as it is: the
name of the file in the encoding of that session needs no mangling. -/
theorem longName_not_demangled : Knows (coldLookups longNameObjects) longNameObjects ∧
      longNameObjects.object 17 = some (2, longName) ∧
      needsMangling (asciiVolume true) longName false = true ∧
      shownName (asciiVolume true) longName 17 false = some shortenedName ∧
      demangle (asciiVolume true) (coldLookups longNameObjects) shortenedName 2 = shortenedName ∧
      ∀ id u, longNameObjects.object id = some (2, u) → u ≠ shortenedName := by
  refine ⟨coldLookups_knows _, rfl, by decide +kernel, by decide +kernel, by decide +kernel, ?_⟩
  intro id u hobj
  obtain ⟨-, ho⟩ := longNameObjects_object hobj
  cases ho
  decide

end Netatalk.Mangle
