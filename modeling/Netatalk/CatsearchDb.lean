import Mathlib

/-! # FPCatSearch through the CNID database

The model of `catsearch_db` (`etc/afpd/catsearch.c`).  A search is a sequence of calls: the first
asks for position 0, and every later one for the position the call before it returned, until a
call answers anything but `AFP_OK`.  The cursor `cur_pos`, the number of matches and the buffer of
CNIDs are statics, so a search starts with what the searches before it left there.

`Db` holds the statics, `catsearchDb` is one call and `Session` a whole search.  What the calls of
the loop's body answer for a CNID is in `Answers`; the tree and the database stay as they are
while a search runs, so it is a function of the CNID.

`int rmatches` is an integer here: a call takes at most 448 bytes of records, each of 2 bytes or
more, so the decrements cannot pass the smallest `int` of a limit that is at least 1. -/

namespace Netatalk.Catsearch

open List

/-! ### The reply -/

/-- `AFP_OK` and the errors of the two searches. -/
inductive Result where
  | ok
  | eof
  | catchng
  | misc
  | nfile
deriving DecidableEq, Repr

/-- The records of a reply, by what they describe, and the bytes they take. -/
structure Reply (α : Type) where
  recs : List α
  size : ℕ
deriving DecidableEq, Repr

/-- No records. -/
def Reply.empty {α : Type} : Reply α := ⟨[], 0⟩

/-- The bytes by which `rslt_add` advances the buffer for `tbuf` bytes of parameters. -/
def rsltAdd (ext : Bool) (tbuf : ℕ) : ℕ :=
  (if tbuf % 2 = 1 then tbuf + 1 else tbuf) + if ext then 4 else 2

/-- The reply with one more record. -/
def Reply.add {α : Type} (out : Reply α) (x : α) (size : ℕ) : Reply α :=
  ⟨out.recs ++ [x], out.size + size⟩

/-- The two limits at which a search pauses after a record. -/
def pauses {α : Type} (rmatches : ℤ) (out : Reply α) : Bool := rmatches = 0 || out.size ≥ 448

/-! ### One CNID -/

abbrev Cnid := ℕ

/-- `errno` of a failed `of_stat`. -/
inductive StatErrno where
  | eacces
  | eloop
  | enoent
  | other
deriving DecidableEq, Repr

/-- What the calls of the loop's body answer for a CNID. -/
structure Answers where
  /-- `cnid_resolve` returns a name -/
  resolves : Bool
  /-- `dirlookup` of the parent -/
  dirlookup : Bool
  movecwd : Bool
  /-- whether the object is a folder, or the `errno` -/
  ofStat : Except StatErrno Bool
  /-- for a folder: `dirlookup` returns an entry that describes it and takes its stat -/
  takesStat : Bool
  critCheck : ℤ
  /-- the length `getdirparams` or `getfilparams` returns, unless it fails -/
  params : Option ℕ
deriving DecidableEq

/-- What the loop's body comes to for a CNID. -/
inductive Visit where
  | next
  | fail
  | hit (size : ℕ)
deriving DecidableEq, Repr

/-- The loop's body, up to the record. -/
def visit (ext : Bool) (a : Answers) : Visit :=
  if a.resolves = false then .next
  else if a.dirlookup = false then .next
  else if a.movecwd = false then .next
  else
    match a.ofStat with
    | .error .eacces => .next
    | .error .eloop => .next
    | .error .enoent => .fail
    | .error .other => .fail
    | .ok isDir =>
      if isDir && !a.takesStat then .next
      else if a.critCheck < 0 then .fail
      else if a.critCheck % 2 = 1 then
        match a.params with
        | none => .fail
        | some tbuf => .hit (rsltAdd ext tbuf)
      else .next

/-! ### The call -/

/-- `CNID_FIND_MIN_RESULTS`: the CNIDs that fit the buffer. -/
def cnidFindMinResults : ℕ := 100

/-- What `cnid_find` writes to the buffer: keys of rows, so each once. -/
structure Found where
  ids : List Cnid
  nodup : ids.Nodup
  fits : ids.length ≤ cnidFindMinResults

/-- The volume and the request of a search. -/
structure Env where
  ext : Bool
  /-- `convert_charset` of the name succeeds -/
  converts : Bool
  find : Option Found
  answers : Cnid → Answers

/-- The statics `cur_pos`, `num_matches` and `resbuf`; a read behind the buffer finds whatever
lies there. -/
structure Db where
  curPos : ℕ
  numMatches : ℤ
  resbuf : ℕ → Cnid

/-- The CNIDs `cnid_find` writes over the buffer. -/
def Db.fill (st : Db) (f : Found) : Db :=
  { st with numMatches := f.ids.length, resbuf := fun i => f.ids.getD i (st.resbuf i) }

/-- What a call returns: its result, the position, the records, and the statics it leaves. -/
structure Return where
  result : Result
  pos : ℕ
  out : Reply Cnid
  st : Db

variable (env : Env)

/-- The loop, for as many rounds as `cur_pos` is short of `num_matches`. -/
def dbLoop (pos : ℕ) : ℕ → ℤ → Reply Cnid → Db → Return
  | 0, _, out, st => ⟨.eof, pos, out, { st with curPos := 0 }⟩
  | n + 1, rmatches, out, st =>
    let cnid := st.resbuf st.curPos
    match visit env.ext (env.answers cnid) with
    | .next => dbLoop pos n rmatches out { st with curPos := st.curPos + 1 }
    | .fail => ⟨.misc, pos, out, st⟩
    | .hit size =>
      let out := out.add cnid size
      if pauses (rmatches - 1) out then ⟨.ok, st.curPos, out, st⟩
      else dbLoop pos n (rmatches - 1) out { st with curPos := st.curPos + 1 }

/-- The rounds the loop can make: `cur_pos < num_matches` compares as unsigned numbers. -/
def Db.rounds (st : Db) : ℕ := (st.numMatches % 2 ^ 32).toNat - st.curPos

/-- `catsearch_db`. -/
def catsearchDb (rmatches : ℤ) (pos : ℕ) (st : Db) : Return :=
  if pos ≠ 0 ∧ pos ≠ st.curPos then ⟨.catchng, pos, .empty, st⟩
  else if st.curPos = 0 ∨ pos = 0 then
    if env.converts = false then ⟨.misc, pos, .empty, st⟩
    else
      match env.find with
      | none => ⟨.misc, pos, .empty, { st with numMatches := -1 }⟩
      | some f => dbLoop env pos (st.fill f).rounds rmatches .empty (st.fill f)
  else dbLoop env pos st.rounds rmatches .empty st

/-- A search from a position: the CNIDs it reports, call after call, and its last result. -/
inductive Session (rmatches : ℤ) : Db → ℕ → List Cnid → Result → Prop
  | stop {st : Db} {pos : ℕ} {r : Return} : catsearchDb env rmatches pos st = r → r.result ≠ .ok →
      Session rmatches st pos r.out.recs r.result
  | resume {st : Db} {pos : ℕ} {r : Return} {rest : List Cnid} {res : Result} :
      catsearchDb env rmatches pos st = r → r.result = .ok → Session rmatches r.st r.pos rest res →
      Session rmatches st pos (r.out.recs ++ rest) res

/-! ### What a call reports -/

/-- The size of a CNID's record, for a CNID whose object meets the criteria. -/
def hitSize (c : Cnid) : Option ℕ :=
  match visit env.ext (env.answers c) with
  | .hit size => some size
  | _ => none

/-- The CNIDs a search has to report. -/
def hits (ids : List Cnid) : List Cnid := ids.filter fun c => (hitSize env c).isSome

/-- The bytes their records take. -/
def hitBytes (ids : List Cnid) : ℕ := (ids.filterMap (hitSize env)).sum

/-- A CNID that fails the search. -/
def Fails (c : Cnid) : Prop := visit env.ext (env.answers c) = .fail

/-- The buffer holds `ids` from the cursor on. -/
structure Ahead (st : Db) (ids : List Cnid) : Prop where
  rounds : st.rounds = ids.length
  buf : ∀ i (hi : i < ids.length), st.resbuf (st.curPos + i) = ids[i]

variable {c : Cnid} {ids recs : List Cnid} {n pos : ℕ} {out : Reply Cnid} {r : Return}
  {res : Result} {st : Db}

theorem Ahead.head (h : Ahead st (c :: ids)) : st.resbuf st.curPos = c := h.buf 0 (by simp)

theorem Ahead.tail (h : Ahead st (c :: ids)) : Ahead { st with curPos := st.curPos + 1 } ids := by
  constructor
  · have hr := h.rounds
    unfold Db.rounds at hr ⊢
    rw [length_cons] at hr
    simp only
    omega
  · intro i hi
    have hb := h.buf (i + 1) (by simpa using hi)
    rw [getElem_cons_succ] at hb
    rw [← hb]
    simp only
    congr 1
    omega

theorem hits_cons_of_hit {size : ℕ} (h : visit env.ext (env.answers c) = .hit size)
    (ids : List Cnid) : hits env (c :: ids) = c :: hits env ids ∧
      hitBytes env (c :: ids) = size + hitBytes env ids := by
  have hs : hitSize env c = some size := by simp [hitSize, h]
  simp [hits, hitBytes, hs]

/-- What the loop comes to over the CNIDs that lie ahead. -/
inductive LoopEnd (pos : ℕ) (ids : List Cnid) (rmatches : ℤ) (out : Reply Cnid) (st : Db) :
    Return → Prop
  | eof : (∀ c ∈ ids, ¬ Fails env c) → (hits env ids).length < rmatches →
      out.size + hitBytes env ids < 448 →
      LoopEnd pos ids rmatches out st
        ⟨.eof, pos, ⟨out.recs ++ hits env ids, out.size + hitBytes env ids⟩,
          { st with curPos := 0 }⟩
  | fail (r : Return) : r.result = .misc → (∃ c ∈ ids, Fails env c) →
      LoopEnd pos ids rmatches out st r
  /-- the cursor stays on the CNID that was reported last -/
  | pause (i : ℕ) (hi : i < ids.length) (size : ℕ) : (hitSize env ids[i]).isSome = true →
      (rmatches ≤ (hits env (ids.take (i + 1))).length ∨
        448 ≤ out.size + hitBytes env (ids.take (i + 1))) →
      LoopEnd pos ids rmatches out st
        ⟨.ok, st.curPos + i, ⟨out.recs ++ hits env (ids.take (i + 1)), size⟩,
          { st with curPos := st.curPos + i }⟩

/-- A CNID that neither fails nor pauses leads the loop to the rest, with what it adds. -/
theorem LoopEnd.cons {rmatches rmatches' : ℤ} {out' : Reply Cnid} (hc : ¬ Fails env c)
    (hadd : ∀ ids, out'.recs ++ hits env ids = out.recs ++ hits env (c :: ids) ∧
      out'.size + hitBytes env ids = out.size + hitBytes env (c :: ids) ∧
      rmatches' - (hits env ids).length = rmatches - (hits env (c :: ids)).length)
    (h : LoopEnd env pos ids rmatches' out' { st with curPos := st.curPos + 1 } r) :
    LoopEnd env pos (c :: ids) rmatches out st r := by
  cases h with
  | eof hf hn hb =>
    obtain ⟨hrecs, hsize, hleft⟩ := hadd ids
    rw [hsize] at hb ⊢
    rw [hrecs]
    exact .eof (forall_mem_cons.mpr ⟨hc, hf⟩) (by omega) hb
  | fail r hres hex =>
    obtain ⟨c', hc', hf⟩ := hex
    exact .fail r hres ⟨c', mem_cons_of_mem c hc', hf⟩
  | pause i hi size hsome hlim =>
    obtain ⟨hrecs, hsize, hleft⟩ := hadd (ids.take (i + 1))
    rw [← take_succ_cons] at hrecs hsize hleft
    rw [hrecs]
    simp only [show st.curPos + 1 + i = st.curPos + (i + 1) by omega]
    exact .pause (i + 1) (by simpa using hi) size hsome (by omega)

theorem dbLoop_end {rmatches : ℤ} (ha : Ahead st ids) (hr : 1 ≤ rmatches) (hout : out.size < 448) :
    LoopEnd env pos ids rmatches out st (dbLoop env pos ids.length rmatches out st) := by
  induction ids generalizing rmatches out st with
  | nil =>
    have h : LoopEnd env pos [] rmatches out st _ :=
      .eof (by simp) (by simp [hits]; omega) (by simpa [hitBytes] using hout)
    simpa [hits, hitBytes, dbLoop] using h
  | cons c ids ih =>
    rw [length_cons]
    unfold dbLoop
    simp only [ha.head]
    cases hc : visit env.ext (env.answers c) with
    | next =>
      refine (ih ha.tail hr hout).cons env (by simp [Fails, hc]) fun ids => ?_
      simp [hits, hitBytes, hitSize, hc]
    | fail => exact .fail _ rfl ⟨c, mem_cons_self, hc⟩
    | hit n =>
      simp only
      have h₁ : hits env [c] = [c] := (hits_cons_of_hit env hc []).1
      have h₂ : hitBytes env [c] = n := (hits_cons_of_hit env hc []).2
      split_ifs with hp
      · have hpause : LoopEnd env pos (c :: ids) rmatches out st _ :=
          .pause 0 (by simp) (out.size + n) (by simp [hitSize, hc]) ?_
        · simpa [h₁, Reply.add] using hpause
        · simp only [take_succ_cons, take_zero, h₁, h₂]
          simp only [pauses, Reply.add, Bool.or_eq_true, decide_eq_true_eq, ge_iff_le] at hp
          simp only [length_singleton]
          omega
      · simp only [pauses, Bool.or_eq_true, decide_eq_true_eq, not_or] at hp
        refine (ih ha.tail (by omega) (lt_of_not_ge hp.2)).cons env (by simp [Fails, hc]) ?_
        intro ids
        obtain ⟨h₁, h₂⟩ := hits_cons_of_hit env hc ids
        rw [h₁, h₂, length_cons]
        simp only [Reply.add, append_assoc, singleton_append, true_and]
        omega

/-! ### Searches -/

section found
variable {f : Found} (hconv : env.converts = true) (hfind : env.find = some f)

/-- The buffer holds what `cnid_find` returned. -/
structure Db.Holds (st : Db) (f : Found) : Prop where
  num : st.numMatches = f.ids.length
  buf : ∀ i (hi : i < f.ids.length), st.resbuf i = f.ids[i]

theorem Db.holds_fill : (st.fill f).Holds f := by
  refine ⟨rfl, ?_⟩
  intro i hi
  simp [Db.fill, hi]

theorem Db.Holds.ahead (h : st.Holds f) : Ahead st (f.ids.drop st.curPos) := by
  constructor
  · have hfits := f.fits
    unfold cnidFindMinResults at hfits
    unfold Db.rounds
    rw [h.num, length_drop]
    omega
  · intro i hi
    rw [length_drop] at hi
    rw [getElem_drop, ← h.buf (st.curPos + i) (by omega)]

theorem Db.Holds.move (h : st.Holds f) (i : ℕ) : ({ st with curPos := i } : Db).Holds f :=
  { h with }

variable {rmatches : ℤ} (hr : 1 ≤ rmatches)

include hr in
theorem dbLoop_holds (h : st.Holds f) : LoopEnd env pos (f.ids.drop st.curPos) rmatches .empty st
      (dbLoop env pos st.rounds rmatches .empty st) := by
  rw [h.ahead.rounds]
  exact dbLoop_end env h.ahead hr (by decide)

include hconv hfind hr in
theorem catsearchDb_first (st : Db) :
    LoopEnd env 0 (f.ids.drop st.curPos) rmatches .empty (st.fill f)
      (catsearchDb env rmatches 0 st) := by
  unfold catsearchDb
  rw [if_neg (by simp), if_pos (.inr rfl), hconv, hfind]
  exact dbLoop_holds env hr (st.holds_fill)

include hconv hfind hr in
/-- A call at the position of the cursor, over the buffer of the search, goes on from there. -/
theorem catsearchDb_resumed (h : st.Holds f) :
    ∃ st', LoopEnd env st.curPos (f.ids.drop st.curPos) rmatches .empty st'
      (catsearchDb env rmatches st.curPos st) := by
  unfold catsearchDb
  rw [if_neg (by simp)]
  split_ifs with hz hc
  · rw [hconv] at hc
    cases hc
  · rw [hfind]
    exact ⟨_, dbLoop_holds env hr (st.holds_fill)⟩
  · exact ⟨_, dbLoop_holds env hr h⟩

omit hr in
theorem Session.unique {recs' : List Cnid} {res' : Result}
    (h : Session env rmatches st pos recs res) (h' : Session env rmatches st pos recs' res') :
    recs = recs' ∧ res = res' := by
  induction h generalizing recs' with
  | stop hc hne =>
    cases h' with
    | stop hc' =>
      rw [hc] at hc'
      exact ⟨by rw [hc'], by rw [hc']⟩
    | resume hc' hok' =>
      rw [hc] at hc'
      rw [hc'] at hne
      exact absurd hok' hne
  | resume hc hok hrest ih =>
    cases h' with
    | stop hc' hne' =>
      rw [hc] at hc'
      rw [← hc'] at hne'
      exact absurd hok hne'
    | resume hc' hok' hrest' =>
      rw [hc] at hc'
      subst hc'
      obtain ⟨h₁, h₂⟩ := ih hrest'
      exact ⟨by rw [h₁], h₂⟩

include hconv hfind hr in
/-- A search that goes on from a CNID it has to report reports that CNID first. -/
theorem Session.head (h : st.Holds f) {tl : List Cnid}
    (hd : f.ids.drop st.curPos = c :: tl) (hc : (hitSize env c).isSome = true)
    (hs : Session env rmatches st st.curPos recs res)
    (hres : res = .eof) : ∃ rest, recs = c :: rest := by
  obtain ⟨st', hend⟩ := catsearchDb_resumed env hconv hfind hr h
  rw [hd] at hend
  have hhits : ∀ ids, hits env (c :: ids) = c :: hits env ids := by
    intro ids
    simp [hits, hc]
  generalize hret : catsearchDb env rmatches st.curPos st = r at hend
  have hbegin : r.result = .misc ∨ ∃ rest, r.out.recs = c :: rest := by
    cases hend with
    | eof => exact .inr ⟨_, hhits tl⟩
    | fail r hm => exact .inl hm
    | pause i =>
      refine .inr ⟨hits env (tl.take i), ?_⟩
      exact hhits _
  cases hs with
  | stop hc' =>
    rw [hret] at hc'
    subst hc'
    rcases hbegin with hm | hrest
    · rw [hm] at hres
      cases hres
    · exact hrest
  | resume hc' hok hrest =>
    rw [hret] at hc'
    subst hc'
    rcases hbegin with hm | ⟨rest, hrest⟩
    · rw [hm] at hok
      cases hok
    · exact ⟨_, by rw [hrest, cons_append]⟩

omit hr in
theorem hits_append (ids' : List Cnid) :
    hits env (ids ++ ids') = hits env ids ++ hits env ids' := filter_append ..

omit hr in
theorem hitBytes_append (ids' : List Cnid) :
    hitBytes env (ids ++ ids') = hitBytes env ids + hitBytes env ids' := by
  simp [hitBytes]

omit hr in
theorem hitBytes_of_hits_nil (h : hits env ids = []) : hitBytes env ids = 0 := by
  have hn : ids.filterMap (hitSize env) = [] := by
    rw [filterMap_eq_nil_iff]
    intro c hc
    have := filter_eq_nil_iff.mp h c hc
    simpa using this
  simp [hitBytes, hn]

/-- The limits a search keeps under: fewer records than the limit, in less than 448 bytes. -/
def Fits (rmatches : ℤ) (ids : List Cnid) : Prop :=
  (hits env ids).length < rmatches ∧ hitBytes env ids < 448

omit hr in
theorem Fits.take (h : Fits env rmatches ids) (i : ℕ) : Fits env rmatches (ids.take i) := by
  obtain ⟨hn, hb⟩ := h
  rw [← take_append_drop i ids, hits_append, length_append] at hn
  rw [← take_append_drop i ids, hitBytes_append] at hb
  exact ⟨by omega, by omega⟩

omit hr in
theorem fits_drop_iff (h : hits env (ids.take n) = []) :
    Fits env rmatches (ids.drop n) ↔ Fits env rmatches ids := by
  have hhits : hits env ids = hits env (ids.drop n) := by
    conv_lhs => rw [← take_append_drop n ids, hits_append, h, nil_append]
  have hbytes : hitBytes env ids = hitBytes env (ids.drop n) := by
    conv_lhs =>
      rw [← take_append_drop n ids, hitBytes_append, hitBytes_of_hits_nil env h, zero_add]
  unfold Fits
  rw [hhits, hbytes]

include hconv hfind hr in
/-- What a search reports after a pause begins with the CNID the paused call reported last. -/
theorem Session.repeats (h : st.Holds f) {i : ℕ} (hi : i < (f.ids.drop st.curPos).length)
    (hsome : (hitSize env (f.ids.drop st.curPos)[i]).isSome = true) {rest : List Cnid}
    (hrest : Session env rmatches { st with curPos := st.curPos + i } (st.curPos + i) rest .eof) :
    ¬ (hits env ((f.ids.drop st.curPos).take (i + 1)) ++ rest).Nodup := by
  have hdrop : f.ids.drop (st.curPos + i) =
      (f.ids.drop st.curPos)[i] :: f.ids.drop (st.curPos + i + 1) := by
    rw [getElem_drop]
    rw [length_drop] at hi
    exact drop_eq_getElem_cons (by omega)
  obtain ⟨tl, rfl⟩ := Session.head env hconv hfind hr (h.move (st.curPos + i)) hdrop hsome hrest rfl
  have hmem : (f.ids.drop st.curPos)[i] ∈ hits env ((f.ids.drop st.curPos).take (i + 1)) := by
    refine mem_filter.mpr ⟨?_, hsome⟩
    exact mem_take_iff_getElem.mpr ⟨i, by omega, rfl⟩
  intro hnd
  exact (nodup_append.mp hnd).2.2 _ hmem _ mem_cons_self rfl

include hconv hfind hr in
/-- A search reports exactly the CNIDs it has to, in the order of the list, and then answers
`AFPERR_EOF` just when the cursor was left on no CNID behind one it has to report, no CNID from
there on fails the search, and all its records fit one call. -/
theorem session_exact_iff (st : Db) : Session env rmatches st 0 (hits env f.ids) .eof ↔
      hits env (f.ids.take st.curPos) = [] ∧ (∀ c ∈ f.ids.drop st.curPos, ¬ Fails env c) ∧
      Fits env rmatches f.ids := by
  have hend := catsearchDb_first env hconv hfind hr st
  have hsplit : hits env f.ids =
      hits env (f.ids.take st.curPos) ++ hits env (f.ids.drop st.curPos) := by
    rw [← hits_append, take_append_drop]
  generalize hret : catsearchDb env rmatches 0 st = r at hend
  constructor
  · intro hs
    generalize hrecs : hits env f.ids = recs at hs
    generalize hres : Result.eof = res at hs
    cases hs with
    | stop hc =>
      rw [hret] at hc
      subst hc
      cases hend with
      | eof hf hn hb =>
        have hnil : hits env (f.ids.take st.curPos) = [] := by
          rw [hsplit] at hrecs
          exact append_left_eq_self.mp hrecs
        refine ⟨hnil, hf, (fits_drop_iff env hnil).mp ⟨hn, ?_⟩⟩
        rwa [Reply.empty, zero_add] at hb
      | fail r hm =>
        rw [hm] at hres
        cases hres
      | pause => cases hres
    | resume hc hok hrest =>
      rw [hret] at hc
      subst hc
      cases hend with
      | eof => cases hok
      | fail r hm =>
        rw [hm] at hok
        cases hok
      | pause i hi size hsome =>
        subst hres
        have hnd : (hits env f.ids).Nodup := f.nodup.filter _
        rw [hrecs] at hnd
        exact absurd hnd
          (Session.repeats env hconv hfind hr (st.holds_fill) hi hsome hrest)
  · rintro ⟨hnil, hf, hfit⟩
    cases hend with
    | eof =>
      have hstop : Session env rmatches st _ _ _ := .stop hret (by simp)
      rw [hsplit, hnil]
      exact hstop
    | fail r hm hex =>
      obtain ⟨c, hc, hcf⟩ := hex
      exact absurd hcf (hf c hc)
    | pause i hi size hsome hlim =>
      obtain ⟨hn, hb⟩ := ((fits_drop_iff env hnil).mpr hfit).take env (i + 1)
      rcases hlim with hlim | hlim
      · exact absurd hn (by omega)
      · simp only [Reply.empty] at hlim
        exact absurd hb (by omega)

end found

/-! ### Two names -/

/-- Two files that meet the criteria, each with a record of 12 bytes. -/
def twoFiles : Env where
  ext := true
  converts := true
  find := some ⟨[17, 18], by decide, by decide⟩
  answers := fun _ => ⟨true, true, true, .ok false, true, 1, some 8⟩

/-- The statics before the first search. -/
def Db.init : Db := ⟨0, 0, fun _ => 0⟩

theorem session_exact_iff_twoFiles : Session twoFiles 3 .init 0 [17, 18] .eof := by
  have h := session_exact_iff twoFiles (f := ⟨[17, 18], by decide, by decide⟩) rfl rfl
    (show (1 : ℤ) ≤ 3 by decide) .init
  refine h.mpr ⟨rfl, ?_, by decide, by decide⟩
  intro c hc
  simp [Fails, twoFiles, visit]

/-- A limit of two matches: the first call reports both files and pauses on the second, and the
second call reports that one again. -/
theorem paused_search_repeats : Session twoFiles 2 .init 0 [17, 18, 18] .eof ∧
    ¬ Session twoFiles 2 .init 0 (hits twoFiles [17, 18]) .eof := by
  have hs : Session twoFiles 2 .init 0 ([17, 18] ++ [18]) .eof :=
    .resume rfl rfl (.stop rfl (by decide))
  refine ⟨hs, ?_⟩
  intro h
  have := (Session.unique twoFiles hs h).1
  revert this
  decide

end Netatalk.Catsearch
