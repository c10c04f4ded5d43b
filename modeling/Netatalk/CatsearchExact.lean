import Netatalk.CatsearchWalk

/-! # What the tree walk of FPCatSearch reports

A search of a tree in which every folder that can be read can also be entered reports each object
that meets the criteria once, whatever its calls are asked for and wherever they pause, and then
answers `AFPERR_EOF`.

Between two rounds of the loop over the stack a search stands between two folders, or a pause has
left it inside one (`Ready`).  In both cases what it has still to report is what lies below the
unchecked folders of the stack and behind the stream, and a round keeps the sum of that and of what
has been reported.

A folder that can be read but not entered breaks this: its stream stays open and is then read in
the place of the stream of the next folder. -/

namespace Netatalk.CatsearchWalk

open List Netatalk.Catsearch
open Item (checked)

variable {N : Type} {env : Env N}

/-! ### Sound trees -/

/-- The folder cannot be read, or it can be read and entered. -/
def Access.Plain (acc : Access) : Prop :=
  acc.opendir = some .eacces ∨ acc.opendir = none ∧ acc.chdir = none

/-- No object that the search comes to fails it, names are distinct within a folder, and no folder
can be read but not entered. -/
inductive Node.Sound (env : Env N) : Node N → Prop
  | file {a : Attr} : a.check env.ext ≠ .fail → Node.Sound env (.file a)
  | other : Node.Sound env .other
  | unstat {e : StatErrno} : e ≠ .other → Node.Sound env (.unstat e)
  | folder {a : Attr} {c : CacheEntry} {acc : Access} {entries : List (N × Node N)} :
      a.check env.ext ≠ .fail → c = .takes → acc.Plain →
      (acc.searchable = true → (entries.map Prod.fst).Nodup) →
      (acc.searchable = true →
        ∀ e ∈ entries, env.checkDirent e.1 = true → Node.Sound env e.2) →
      Node.Sound env (.folder a c acc entries)

/-- The same of the entries of a folder. -/
structure SoundIn (env : Env N) (acc : Access) (entries : List (N × Node N)) : Prop where
  plain : acc.Plain
  nodup : acc.searchable = true → (entries.map Prod.fst).Nodup
  sound : acc.searchable = true → ∀ e ∈ entries, env.checkDirent e.1 = true → e.2.Sound env

/-! ### What lies ahead -/

def Item.objects (env : Env N) (i : Item N) : Multiset (List N) :=
  if i.checked || !i.access.searchable then 0
  else (objectsIn env i.path i.entries : Multiset (List N))

def Item.names (i : Item N) : ℕ := if i.checked then 0 else namesIn i.entries

def Item.folders (i : Item N) : ℕ := if i.checked then 0 else foldersIn i.entries + 1

def Item.Sound (env : Env N) (i : Item N) : Prop := SoundIn env i.access i.entries

section sum
variable {M : Type} [AddCommMonoid M]

/-- A quantity summed over the stack. -/
def stackSum (f : Item N → M) (ds : List (Item N)) : M := (ds.map f).sum

@[simp] theorem stackSum_nil (f : Item N → M) : stackSum f [] = 0 := rfl

@[simp] theorem stackSum_cons (f : Item N → M) (i : Item N) (ds : List (Item N)) :
    stackSum f (i :: ds) = f i + stackSum f ds := sum_cons

@[simp] theorem stackSum_append (f : Item N → M) (ds ds' : List (Item N)) :
    stackSum f (ds ++ ds') = stackSum f ds + stackSum f ds' := by
  rw [stackSum, map_append, sum_append]
  rfl

/-- Taking checked folders off the top loses nothing. -/
theorem stackSum_rdropWhile (f : Item N → M) (hf : ∀ i : Item N, i.checked = true → f i = 0)
    (ds : List (Item N)) : stackSum f (ds.rdropWhile checked) = stackSum f ds := by
  induction ds using reverseRecOn with
  | nil => rfl
  | append_singleton ds i ih =>
    rw [rdropWhile_concat]
    split_ifs with hc
    · rw [ih, stackSum_append, stackSum_cons, stackSum_nil, hf i hc, add_zero, add_zero]
    · rfl

end sum

/-- `reducestack` leaves an unchecked folder on top, if any. -/
theorem rdropWhile_cases (ds : List (Item N)) : ds.rdropWhile checked = [] ∨
      ∃ below cur, ds.rdropWhile checked = below ++ [cur] ∧ cur.checked = false := by
  induction ds using reverseRecOn with
  | nil => exact .inl rfl
  | append_singleton ds i ih =>
    rw [rdropWhile_concat]
    split_ifs with hc
    · exact ih
    · exact .inr ⟨ds, i, rfl, by simpa using hc⟩

variable {a : Attr} {above below ds : List (Item N)} {e : N × Node N}
  {entries rest : List (N × Node N)} {fuel p pos : ℕ} {l l' l₁ : Local N} {path : List N}
  {w : Walk N}

/-! ### One name -/

/-- The objects to report of one entry. -/
def objectsAt (env : Env N) (path : List N) (e : N × Node N) : List (List N) :=
  if env.checkDirent e.1 then e.2.objects env (path ++ [e.1]) else []

theorem objectsIn_cons (path : List N) (e : N × Node N) (entries : List (N × Node N)) :
    objectsIn env path (e :: entries) = objectsAt env path e ++ objectsIn env path entries := by
  rw [objectsIn, objectsAt]

theorem objectsIn_append (path : List N) (es es' : List (N × Node N)) :
    objectsIn env path (es ++ es') = objectsIn env path es ++ objectsIn env path es' := by
  induction es with
  | nil => rw [objectsIn, nil_append, nil_append]
  | cons e es ih => rw [cons_append, objectsIn_cons, ih, objectsIn_cons, append_assoc]

theorem namesIn_append (es es' : List (N × Node N)) :
    namesIn (es ++ es') = namesIn es + namesIn es' := by
  induction es with
  | nil => rw [namesIn, nil_append, zero_add]
  | cons e es ih =>
    rw [cons_append, namesIn, namesIn]
    omega

theorem foldersIn_append (es es' : List (N × Node N)) :
    foldersIn (es ++ es') = foldersIn es + foldersIn es' := by
  induction es with
  | nil => rw [foldersIn, nil_append, zero_add]
  | cons e es ih => rw [cons_append, foldersIn, foldersIn, ih, add_assoc]

/-- What the body of the loop does with an entry of a sound folder. -/
inductive EntrySpec (env : Env N) (path : List N) (e : N × Node N) : Entry N → Prop
  | next : objectsAt env path e = [] → EntrySpec env path e .next
  | object {a : Attr} {push : List (Item N)} : a.check env.ext ≠ .fail →
      (objectsAt env path e : Multiset (List N)) =
        (a.hits env (path ++ [e.1]) : Multiset (List N)) + stackSum (Item.objects env) push →
      stackSum Item.names push ≤ e.2.names → stackSum Item.folders push ≤ e.2.folders →
      (∀ i ∈ push, i.Sound env) → EntrySpec env path e (.object a push)

/-- A criterion that does not fail reports the path if it is met, and leaves the position. -/
theorem report_spec (args : Args N) (path : List N) (l : Local N) (ha : a.check env.ext ≠ .fail) :
    ∃ p l', report env args path a l = some (p, l') ∧ l'.pos = l.pos ∧
      l'.out.recs = l.out.recs ++ a.hits env path := by
  have htick : ∀ l : Local N, (tick args l).2.pos = l.pos ∧ (tick args l).2.out = l.out := by
    intro l
    unfold tick
    split_ifs <;> exact ⟨rfl, rfl⟩
  unfold report Attr.hits
  cases hc : a.check env.ext with
  | fail => exact absurd hc ha
  | next =>
    refine ⟨(tick args l).1, (tick args l).2, rfl, (htick l).1, ?_⟩
    rw [(htick l).2, append_nil]
  | hit =>
    simp only
    split_ifs
    · exact ⟨_, _, rfl, rfl, rfl⟩
    · refine ⟨(tick args _).1, (tick args _).2, rfl, (htick _).1, ?_⟩
      rw [(htick _).2]
      rfl

/-- What the loop over the names has done after the entries `mid`: `push` is what it has pushed. -/
structure Reads (env : Env N) (path : List N) (mid : List (N × Node N)) (l l' : Local N)
    (push : List (Item N)) : Prop where
  objects : (l'.out.recs : Multiset (List N)) + stackSum (Item.objects env) push =
    (l.out.recs : Multiset (List N)) + (objectsIn env path mid : Multiset (List N))
  pos : l'.pos = l.pos + mid.length
  names : stackSum Item.names push + mid.length ≤ namesIn mid
  folders : stackSum Item.folders push ≤ foldersIn mid
  sound : ∀ i ∈ push, i.Sound env

theorem Reads.nil (path : List N) (l : Local N) : Reads env path [] l l [] :=
  ⟨by simp [objectsIn], rfl, le_rfl, le_rfl, by simp⟩

theorem Reads.next {mid : List (N × Node N)} {push : List (Item N)} (he : objectsAt env path e = [])
    (hpos : l₁.pos = l.pos + 1) (hout : l₁.out = l.out) (h : Reads env path mid l₁ l' push) :
    Reads env path (e :: mid) l l' push := by
  obtain ⟨ho, hp, hn, hf, hs⟩ := h
  refine ⟨?_, ?_, ?_, ?_, hs⟩
  · rw [ho, objectsIn_cons, he, nil_append, hout]
  · rw [length_cons]
    omega
  · rw [length_cons, namesIn]
    omega
  · rw [foldersIn]
    omega

theorem Reads.object {path : List N} {e : N × Node N} {mid : List (N × Node N)}
    {l l₁ l' : Local N} {a : Attr} {push push' : List (Item N)}
    (ho : (objectsAt env path e : Multiset (List N)) =
      (a.hits env (path ++ [e.1]) : Multiset (List N)) + stackSum (Item.objects env) push)
    (hn : stackSum Item.names push ≤ e.2.names) (hf : stackSum Item.folders push ≤ e.2.folders)
    (hs : ∀ i ∈ push, i.Sound env) (hpos : l₁.pos = l.pos + 1)
    (hout : l₁.out.recs = l.out.recs ++ a.hits env (path ++ [e.1]))
    (h : Reads env path mid l₁ l' push') : Reads env path (e :: mid) l l' (push ++ push') := by
  obtain ⟨ho', hp', hn', hf', hs'⟩ := h
  refine ⟨?_, ?_, ?_, ?_, ?_⟩
  · rw [objectsIn_cons, ← Multiset.coe_add, ho, stackSum_append]
    rw [hout, ← Multiset.coe_add] at ho'
    rw [add_left_comm, ho']
    abel
  · rw [length_cons]
    omega
  · rw [stackSum_append, length_cons, namesIn]
    omega
  · rw [stackSum_append, foldersIn]
    omega
  · intro i hi
    exact (mem_append.mp hi).elim (hs i) (hs' i)

/-- How the loop over the names of a sound folder ends, from the entries `rest` on. -/
inductive ReadSpec (env : Env N) (path : List N) (rest : List (N × Node N)) (l : Local N)
    (ds : List (Item N)) : ReadEnd N → Prop
  | finished {l' : Local N} {push : List (Item N)} : Reads env path rest l l' push →
      ReadSpec env path rest l ds (.finished l' (ds ++ push))
  | paused {l' : Local N} {push : List (Item N)} {e : N × Node N} {mid rest' : List (N × Node N)} :
      rest = e :: mid ++ rest' → Reads env path (e :: mid) l l' push →
      ReadSpec env path rest l ds (.paused l' (ds ++ push) (rest'.map Prod.fst))

theorem ReadSpec.next {o : ReadEnd N} (h : ReadSpec env path rest l₁ ds o)
    (he : objectsAt env path e = []) (hpos : l₁.pos = l.pos + 1) (hout : l₁.out = l.out) :
    ReadSpec env path (e :: rest) l ds o := by
  cases h with
  | finished hr => exact .finished (hr.next he hpos hout)
  | paused heq hr =>
    subst heq
    exact .paused rfl (hr.next he hpos hout)

theorem ReadSpec.object {path : List N} {e : N × Node N} {rest : List (N × Node N)}
    {l l₁ : Local N} {ds push : List (Item N)} {o : ReadEnd N}
    (hreads : ∀ {mid l' push'}, Reads env path mid l₁ l' push' →
      Reads env path (e :: mid) l l' (push ++ push'))
    (h : ReadSpec env path rest l₁ (ds ++ push) o) : ReadSpec env path (e :: rest) l ds o := by
  cases h with
  | finished hr =>
    rw [append_assoc]
    exact .finished (hreads hr)
  | paused heq hr =>
    subst heq
    rw [append_assoc]
    exact .paused rfl (hreads hr)

variable [DecidableEq N]

variable {cur : Item N}

theorem entry_spec (hl : cur.entries.lookup e.1 = some e.2)
    (hs : env.checkDirent e.1 = true → e.2.Sound env) :
    EntrySpec env cur.path e (entry env cur e.1) := by
  obtain ⟨name, node⟩ := e
  unfold entry
  split_ifs with hv
  · exact .next (by simp [objectsAt, hv])
  · have hv' : env.checkDirent name = true := by simpa using hv
    rw [hl]
    cases hs hv' with
    | file ha =>
      refine .object ha ?_ zero_le zero_le (by simp)
      simp [objectsAt, hv', Node.objects]
    | other => exact .next (by simp [objectsAt, Node.objects])
    | @unstat e he =>
      cases e with
      | other => exact absurd rfl he
      | eacces | eloop | enoent => exact .next (by simp [objectsAt, Node.objects])
    | @folder a c acc entries ha hc hp hn hin =>
      subst hc
      refine .object ha ?_ ?_ ?_ ?_
      · simp only [objectsAt, hv', if_true, Node.objects, Item.objects, Item.fresh,
          stackSum_cons, stackSum_nil, add_zero]
        cases acc.searchable <;> simp
      · simp [Item.names, Item.fresh, Node.names]
      · simp [Item.folders, Item.fresh, Node.folders]
      · intro i hi
        obtain rfl := mem_singleton.mp hi
        exact ⟨hp, hn, hin⟩

theorem readLoop_spec {args : Args N} (hargs : args.Served) (rest : List (N × Node N))
    {l : Local N} {ds : List (Item N)}
    (hl : ∀ e ∈ rest, cur.entries.lookup e.1 = some e.2)
    (hs : ∀ e ∈ rest, env.checkDirent e.1 = true → e.2.Sound env)
    (hpos : l.pos + rest.length < 2 ^ 32) :
    ReadSpec env cur.path rest l ds (readLoop env args cur (rest.map Prod.fst) l ds) := by
  induction rest generalizing l ds with
  | nil =>
    have h : ReadSpec env cur.path [] l ds (.finished l (ds ++ [])) :=
      .finished (Reads.nil cur.path l)
    rwa [append_nil] at h
  | cons e rest ih =>
    rw [length_cons] at hpos
    obtain ⟨hle, hl'⟩ := forall_mem_cons.mp hl
    obtain ⟨hse, hs'⟩ := forall_mem_cons.mp hs
    have hpos' : l.pos + 1 + rest.length < 2 ^ 32 := by omega
    have hmod : (l.pos + 1) % 2 ^ 32 = l.pos + 1 := Nat.mod_eq_of_lt (by omega)
    have hentry := entry_spec hle hse
    rw [map_cons, readLoop, hmod]
    generalize entry env cur e.1 = o at hentry
    cases hentry with
    | next ho =>
      have h := @ih { l with pos := l.pos + 1 } ds hl' hs' hpos'
      exact h.next ho rfl rfl
    | @object a push ha ho hn hf hsp =>
      obtain ⟨p, l₁, hrep, hp, hout⟩ :=
        report_spec args (cur.path ++ [e.1]) { l with pos := l.pos + 1 } ha
      have hreads : ∀ {mid l' push'}, Reads env cur.path mid l₁ l' push' →
          Reads env cur.path (e :: mid) l l' (push ++ push') :=
        fun h => Reads.object ho hn hf hsp hp hout h
      simp only [hargs.addstack, hrep, Bool.not_true, Bool.and_false, Bool.false_eq_true, if_false]
      cases p with
      | true =>
        have h := hreads (Reads.nil cur.path l₁)
        rw [append_nil] at h
        exact .paused rfl h
      | false =>
        exact (ih hl' hs' (hp ▸ hpos')).object hreads

/-! ### The stack -/

/-- Where a search stands between two rounds of the loop over the stack, with the objects it has
still to report, and bounds for the names and the folders ahead of it. -/
inductive Ready (env : Env N) : Walk N → Multiset (List N) → ℕ → ℕ → Prop
  | between {p : ℕ} {ds : List (Item N)} : (∀ i ∈ ds, i.Sound env) →
      Ready env ⟨p, none, none, ds⟩ (stackSum (Item.objects env) ds) (stackSum Item.names ds)
        (stackSum Item.folders ds)
  | inside {p : ℕ} {below above : List (Item N)} {cur : Item N} {pre rest : List (N × Node N)} :
      cur.entries = pre ++ rest → cur.access.searchable = true →
      (∀ i ∈ below ++ cur :: above, i.Sound env) →
      Ready env ⟨p, some (rest.map Prod.fst), some below.length, below ++ cur :: above⟩
        (stackSum (Item.objects env) (below ++ above) +
          (objectsIn env cur.path rest : Multiset (List N)))
        (stackSum Item.names (below ++ above) + namesIn rest)
        (stackSum Item.folders (below ++ above) + foldersIn rest + 1)

/-- What a call comes to from such a state: it reports all, or it pauses in such a state again. -/
inductive CallSpec (env : Env N) (l : Local N) (objs : Multiset (List N)) (names folders : ℕ)
    (r : Return N) : Prop
  | eof : r.result = .eof →
      (r.out.recs : Multiset (List N)) = (l.out.recs : Multiset (List N)) + objs →
      CallSpec env l objs names folders r
  | pause {objs' : Multiset (List N)} {names' folders' : ℕ} : r.result = .ok →
      Ready env r.walk objs' names' folders' → r.walk.curPos = r.pos → l.pos < r.pos →
      (r.out.recs : Multiset (List N)) + objs' = (l.out.recs : Multiset (List N)) + objs →
      r.pos + names' ≤ l.pos + names → folders' ≤ folders → CallSpec env l objs names folders r

omit [DecidableEq N] in
/-- A round that does not end the call hands on to the next one. -/
theorem CallSpec.of_round {objs objs' : Multiset (List N)} {names names' folders folders' : ℕ}
    {r : Return N} (h : CallSpec env l' objs' names' folders' r)
    (ho : (l'.out.recs : Multiset (List N)) + objs' = (l.out.recs : Multiset (List N)) + objs)
    (hpos : l.pos ≤ l'.pos) (hn : l'.pos + names' ≤ l.pos + names) (hf : folders' ≤ folders) :
    CallSpec env l objs names folders r := by
  cases h with
  | eof hres hrecs => exact .eof hres (hrecs.trans ho)
  | pause hres hready hcur hlt hrecs hnames hfolders =>
    exact .pause hres hready hcur (by omega) (hrecs.trans ho) (by omega) (by omega)

theorem lookup_of_mem
    (hn : (entries.map Prod.fst).Nodup) (h : e ∈ entries) : entries.lookup e.1 = some e.2 := by
  induction entries with
  | nil => cases h
  | cons x entries ih =>
    rw [map_cons, nodup_cons] at hn
    rcases mem_cons.mp h with rfl | h
    · rw [lookup_cons_self]
    · have hne : e.1 ≠ x.1 := by
        intro heq
        exact hn.1 (heq ▸ List.mem_map_of_mem h)
      rw [lookup_cons, beq_false_of_ne hne]
      exact ih hn.2 h

omit [DecidableEq N] in
theorem modify_cur (below above : List (Item N)) (cur : Item N) :
    (below ++ cur :: above).modify below.length Item.check = below ++ cur.check :: above := by
  induction below with
  | nil => rfl
  | cons i below ih => rw [cons_append, length_cons, modify_succ_cons, ih]; rfl

omit [DecidableEq N] in
theorem Access.Plain.cases {acc : Access} (h : acc.Plain) :
    acc.searchable = true ∨ acc.searchable = false ∧ acc.opendir = some .eacces := by
  rcases h with h | ⟨ho, hc⟩
  · exact .inr ⟨by simp [Access.searchable, h], h⟩
  · exact .inl (by simp [Access.searchable, ho, hc])

section enter
variable {cur : Item N}
omit [DecidableEq N]

theorem enter_open (h : cur.access.searchable = true) (names : List N) :
    enter cur (some names) = (some names, none) := by
  simp only [Access.searchable, Bool.and_eq_true, decide_eq_true_eq] at h
  rw [enter, h.1]

theorem enter_searchable (h : cur.access.searchable = true) :
    enter cur none = (some (cur.entries.map Prod.fst), none) := by
  simp only [Access.searchable, Bool.and_eq_true, decide_eq_true_eq] at h
  simp only [enter, Item.opendir, h.1, h.2]

end enter

omit [DecidableEq N] in
theorem stackSum_push {M : Type} [AddCommMonoid M] (f : Item N → M)
    (below above push : List (Item N)) :
    stackSum f (below ++ (above ++ push)) = stackSum f push + stackSum f (below ++ above) := by
  simp only [stackSum_append]
  abel

omit [DecidableEq N] in
/-- A folder that has been read counts no more. -/
theorem stackSum_check {M : Type} [AddCommMonoid M] {f : Item N → M} (hf : f cur.check = 0)
    (below above push : List (Item N)) :
    stackSum f (below ++ cur.check :: (above ++ push)) =
      stackSum f push + stackSum f (below ++ above) := by
  rw [← stackSum_push, stackSum_append, stackSum_cons, hf, zero_add, ← stackSum_append]

omit [DecidableEq N] in
theorem sound_push {below above push : List (Item N)} {cur c : Item N}
    (h : ∀ i ∈ below ++ cur :: above, i.Sound env) (hc : c.Sound env)
    (hpush : ∀ i ∈ push, i.Sound env) : ∀ i ∈ below ++ c :: (above ++ push), i.Sound env := by
  intro i hi
  simp only [mem_append, mem_cons] at h hi
  rcases hi with hi | rfl | hi | hi
  · exact h i (.inl hi)
  · exact hc
  · exact h i (.inr (.inr hi))
  · exact hpush i hi

/-- What the loop over the stack does once it stands in the folder `cur`. -/
def inFolder (env : Env N) (args : Args N) (fuel : ℕ) (l : Local N) (p cidx : ℕ) (cur : Item N)
    (names : List N) (ds : List (Item N)) : Option (Return N) :=
  match readLoop env args cur names l ds with
  | .finished l ds =>
    stackLoop env args fuel l ⟨p, none, none, ds.modify cidx Item.check⟩
  | .paused l ds rest => some ⟨.ok, l.pos, l.out, ⟨l.pos, some rest, some cidx, ds⟩⟩
  | .failed l ds rest => some ⟨.misc, l.pos, l.out, ⟨p, some rest, none, ds⟩⟩

/-- The statement about the loop over the stack with `fuel` rounds. -/
def StackSpec (env : Env N) (args : Args N) (fuel : ℕ) : Prop :=
  ∀ {l : Local N} {w : Walk N} {objs : Multiset (List N)} {names folders : ℕ},
    Ready env w objs names folders → folders < fuel → l.pos + names < 2 ^ 32 →
    ∃ r, stackLoop env args fuel l w = some r ∧ CallSpec env l objs names folders r

omit [DecidableEq N] in
theorem length_le_namesIn (entries : List (N × Node N)) : entries.length ≤ namesIn entries := by
  induction entries with
  | nil => exact le_rfl
  | cons e entries ih =>
    rw [length_cons, namesIn]
    omega

section served
variable {args : Args N} (hargs : args.Served)
include hargs

theorem inFolder_spec (ih : StackSpec env args fuel) (p : ℕ) {pre : List (N × Node N)}
    (heq : cur.entries = pre ++ rest)
    (hsearch : cur.access.searchable = true) (hsound : ∀ i ∈ below ++ cur :: above, i.Sound env)
    (hfuel : stackSum Item.folders (below ++ above) + foldersIn rest < fuel)
    (hpos : l.pos + (stackSum Item.names (below ++ above) + namesIn rest) < 2 ^ 32) :
    ∃ r, inFolder env args fuel l p below.length cur (rest.map Prod.fst)
        (below ++ cur :: above) = some r ∧
      CallSpec env l
        (stackSum (Item.objects env) (below ++ above) +
          (objectsIn env cur.path rest : Multiset (List N)))
        (stackSum Item.names (below ++ above) + namesIn rest)
        (stackSum Item.folders (below ++ above) + foldersIn rest + 1) r := by
  have hcur : cur.Sound env := hsound cur (by simp)
  have hmem : ∀ e ∈ rest, e ∈ cur.entries := fun e he => heq ▸ mem_append_right pre he
  have hlen := length_le_namesIn rest
  have hread : ReadSpec env cur.path rest l (below ++ cur :: above)
      (readLoop env args cur (rest.map Prod.fst) l (below ++ cur :: above)) :=
    readLoop_spec hargs rest (fun e he => lookup_of_mem (hcur.nodup hsearch) (hmem e he))
      (fun e he => hcur.sound hsearch e (hmem e he)) (by omega)
  unfold inFolder
  generalize readLoop env args cur (rest.map Prod.fst) l (below ++ cur :: above) = o at hread
  cases hread with
  | @finished l' push hr =>
    have hpush := hr.pos
    have hnames := hr.names
    have hfolders := hr.folders
    have hready : Ready env ⟨p, none, none, below ++ cur.check :: (above ++ push)⟩ _ _ _ :=
      .between (sound_push hsound hcur hr.sound)
    rw [stackSum_check rfl, stackSum_check rfl, stackSum_check rfl] at hready
    obtain ⟨r, hrun, hspec⟩ := @ih l' _ _ _ _ hready (by omega) (by omega)
    refine ⟨r, ?_, hspec.of_round ?_ (by omega) (by omega) (by omega)⟩
    · simp only [append_assoc, cons_append, modify_cur]
      exact hrun
    · rw [← add_assoc, hr.objects]
      abel
  | @paused l' push e mid rest' hrest hr =>
    have hpush := hr.pos
    have hnames := hr.names
    have hfolders := hr.folders
    rw [length_cons] at hpush hnames
    have heq' : cur.entries = (pre ++ e :: mid) ++ rest' := by
      rw [heq, hrest, append_assoc]
    have hready : Ready env ⟨l'.pos, some (rest'.map Prod.fst), some below.length,
        below ++ cur :: (above ++ push)⟩ _ _ _ :=
      .inside heq' hsearch (sound_push hsound hcur hr.sound)
    rw [stackSum_push, stackSum_push, stackSum_push] at hready
    simp only [append_assoc]
    refine ⟨_, rfl, .pause rfl hready rfl ?_ ?_ ?_ ?_⟩
    · show l.pos < l'.pos
      omega
    · rw [← add_assoc, ← add_assoc, hr.objects, hrest, objectsIn_append, ← Multiset.coe_add]
      abel
    · rw [hrest, namesIn_append]
      show l'.pos + _ ≤ _
      omega
    · rw [hrest, foldersIn_append]
      omega

/-- A round for a folder that can be entered and whose stream is open. -/
theorem stackLoop_inFolder {dirpos : Option (List N)} {names : List N}
    (hred : reducestack w = (some below.length, ⟨p, dirpos, none, below ++ cur :: above⟩))
    (henter : enter cur dirpos = (some names, none)) : stackLoop env args (fuel + 1) l w =
      inFolder env args fuel l p below.length cur names (below ++ cur :: above) := by
  have hget : (below ++ cur :: above)[below.length]? = some cur := by simp
  simp only [stackLoop, hred, hget, henter, hargs.dirlookup]
  rfl

theorem stackSpec (fuel : ℕ) : StackSpec env args fuel := by
  induction fuel with
  | zero => exact fun _ hf => absurd hf (by omega)
  | succ fuel ih =>
    intro l w objs names folders hready hfuel hpos
    cases hready with
    | @between p ds hsound =>
      have ho := stackSum_rdropWhile (Item.objects env)
        (fun i hi => by simp [Item.objects, hi]) ds
      have hn := stackSum_rdropWhile Item.names (fun i hi => by simp [Item.names, hi]) ds
      have hf := stackSum_rdropWhile Item.folders (fun i hi => by simp [Item.folders, hi]) ds
      have hs : ∀ i ∈ ds.rdropWhile checked, i.Sound env :=
        fun i hi => hsound i (( rdropWhile_prefix _ ds).subset hi)
      rw [← ho, ← hn, ← hf]
      rw [← hn] at hpos
      rw [← hf] at hfuel
      rcases rdropWhile_cases ds with hnil | ⟨below, cur, heq, hc⟩
      · refine ⟨⟨.eof, l.pos, l.out, ⟨p, none, none, []⟩⟩, ?_, .eof rfl ?_⟩
        · simp [stackLoop, reducestack, hnil]
        · rw [hnil, stackSum_nil, add_zero]
      · have hred : reducestack ⟨p, none, none, ds⟩ =
            (some below.length, ⟨p, none, none, below ++ [cur]⟩) := by
          simp [reducestack, heq]
        rw [heq] at hs hpos hfuel ⊢
        rcases (hs cur (by simp)).plain.cases with hsearch | ⟨hsearch, hop⟩
        · have ho' : stackSum (Item.objects env) (below ++ [cur]) =
              stackSum (Item.objects env) (below ++ []) +
                (objectsIn env cur.path cur.entries : Multiset (List N)) := by
            simp [Item.objects, hc, hsearch]
          have hn' : stackSum Item.names (below ++ [cur]) =
              stackSum Item.names (below ++ []) + namesIn cur.entries := by
            simp [Item.names, hc]
          have hf' : stackSum Item.folders (below ++ [cur]) =
              stackSum Item.folders (below ++ []) + foldersIn cur.entries + 1 := by
            simp [Item.folders, hc, add_assoc]
          rw [ho', hn', hf', stackLoop_inFolder hargs hred (enter_searchable hsearch)]
          exact inFolder_spec hargs ih p (nil_append _).symm hsearch hs (by omega) (by omega)
        · have hget : (below ++ [cur])[below.length]? = some cur := by simp
          simp only [stackLoop, hred, hget, hargs.dirlookup, enter, Item.opendir, hop, modify_cur,
            Bool.not_true, Bool.false_eq_true, if_false]
          have hcur : cur.check.Sound env := hs cur (by simp)
          have hready : Ready env ⟨p, none, none, below ++ [cur.check]⟩ _ _ _ :=
            .between (@sound_push N env below [] [] cur cur.check hs hcur (by simp))
          have ho' : stackSum (Item.objects env) (below ++ [cur.check]) =
              stackSum (Item.objects env) (below ++ [cur]) := by
            simp [Item.objects, Item.check, hsearch]
          have hn' : stackSum Item.names (below ++ [cur.check]) ≤
              stackSum Item.names (below ++ [cur]) := by
            simp [Item.names, Item.check]
          have hf' : stackSum Item.folders (below ++ [cur.check]) <
              stackSum Item.folders (below ++ [cur]) := by
            simp [Item.folders, Item.check, hc]
          obtain ⟨r, hrun, hspec⟩ := @ih l _ _ _ _ hready (by omega) (by omega)
          exact ⟨r, hrun, hspec.of_round (by rw [ho']) le_rfl (by omega) (by omega)⟩
    | @inside p below above cur pre rest heq hsearch hsound =>
      have hred : reducestack ⟨p, some (rest.map Prod.fst), some below.length,
          below ++ cur :: above⟩ = (some below.length,
          ⟨p, some (rest.map Prod.fst), none, below ++ cur :: above⟩) := rfl
      rw [stackLoop_inFolder hargs hred (enter_open hsearch _)]
      exact inFolder_spec hargs ih p heq hsearch hsound (by omega) hpos

end served

/-! ### Paths -/

section paths
omit [DecidableEq N]

theorem Attr.mem_hits {p : List N} (h : p ∈ a.hits env path) : p = path := by
  unfold Attr.hits at h
  split at h
  · exact mem_singleton.mp h
  · cases h

theorem Attr.nodup_hits (a : Attr) (path : List N) : (a.hits env path).Nodup := by
  unfold Attr.hits
  split
  · exact nodup_singleton _
  · exact nodup_nil

mutual
theorem Node.objects_below (path : List N) (node : Node N) :
    ∀ p ∈ node.objects env path, ∃ t, p = path ++ t := by
  intro p hp
  match node with
  | .file a =>
    exact ⟨[], by rw [Attr.mem_hits hp, append_nil]⟩
  | .folder a c acc entries =>
    rw [Node.objects, mem_append] at hp
    rcases hp with hp | hp
    · exact ⟨[], by rw [Attr.mem_hits hp, append_nil]⟩
    · split_ifs at hp
      · obtain ⟨name, _, t, rfl⟩ := objectsIn_below path entries p hp
        exact ⟨name :: t, rfl⟩
      · cases hp
  | .other | .unstat _ => rw [Node.objects] at hp; cases hp
/-- The objects of a folder's entries lie below its path, under their names. -/
theorem objectsIn_below (path : List N) (entries : List (N × Node N)) :
    ∀ p ∈ objectsIn env path entries, ∃ name ∈ entries.map Prod.fst, ∃ t,
      p = path ++ name :: t := by
  intro p hp
  match entries with
  | [] => rw [objectsIn] at hp; cases hp
  | (name, node) :: entries =>
    rw [objectsIn, mem_append] at hp
    rcases hp with hp | hp
    · split_ifs at hp
      · obtain ⟨t, rfl⟩ := Node.objects_below (path ++ [name]) node p hp
        exact ⟨name, mem_cons_self, t, by rw [append_assoc]; rfl⟩
      · cases hp
    · obtain ⟨name', hname, t, rfl⟩ := objectsIn_below path entries p hp
      exact ⟨name', mem_cons_of_mem _ hname, t, rfl⟩
end

theorem nodup_objectsIn (hn : (entries.map Prod.fst).Nodup)
    (h : ∀ e ∈ entries, env.checkDirent e.1 = true → ∀ path, (e.2.objects env path).Nodup) :
    (objectsIn env path entries).Nodup := by
  induction entries with
  | nil => rw [objectsIn]; exact nodup_nil
  | cons e entries ih =>
    rw [map_cons, nodup_cons] at hn
    rw [objectsIn_cons, nodup_append]
    refine ⟨?_, ih hn.2 (forall_mem_cons.mp h).2, ?_⟩
    · unfold objectsAt
      split_ifs with hv
      · exact h e mem_cons_self hv _
      · exact nodup_nil
    · rintro p hp q hq rfl
      obtain ⟨name, hname, t, rfl⟩ := objectsIn_below path entries p hq
      unfold objectsAt at hp
      split_ifs at hp
      · obtain ⟨t', ht'⟩ := Node.objects_below (path ++ [e.1]) e.2 _ hp
        rw [append_assoc, append_cancel_left_eq] at ht'
        exact hn.1 ((cons.inj ht').1 ▸ hname)
      · cases hp

theorem Node.Sound.nodup_objects {node : Node N} (h : node.Sound env) (path : List N) :
    (node.objects env path).Nodup := by
  induction h generalizing path with
  | @file a ha =>
    exact a.nodup_hits path
  | other | unstat => rw [Node.objects]; exact nodup_nil
  | @folder a c acc entries ha hc hp hn hs ih =>
    rw [Node.objects, nodup_append]
    refine ⟨a.nodup_hits path, ?_, ?_⟩
    · split_ifs with hsearch
      · exact nodup_objectsIn (hn hsearch) (ih hsearch)
      · exact nodup_nil
    · rintro p hhit q hq rfl
      split_ifs at hq
      · obtain ⟨name, _, t, ht⟩ := objectsIn_below path entries p hq
        rw [Attr.mem_hits hhit] at ht
        simp at ht
      · cases hq

theorem SoundIn.nodup_objects {root : Root N} (h : SoundIn env root.access root.entries) :
    (root.objects env).Nodup := by
  unfold Root.objects
  split_ifs with hsearch
  · exact nodup_objectsIn (h.nodup hsearch)
      fun e he hv path => (h.sound hsearch e he hv).nodup_objects path
  · exact nodup_nil

end paths

/-! ### Searches -/

variable {root : Root N} {args : ℕ → Args N}

/-- The state a call at position `pos` starts its loop with. -/
def Enters (root : Root N) (pos : ℕ) (w w' : Walk N) : Prop :=
  pos = 0 ∧ w' = ⟨w.curPos, none, none, [.fresh [] root.access root.entries]⟩ ∨
    0 < pos ∧ pos = w.curPos ∧ w' = w

theorem catsearch_enters {args : Args N} (hargs : args.Served) {w' : Walk N}
    (h : Enters root pos w w') :
    catsearch env root args pos w =
      stackLoop env args (foldersIn root.entries + 2) ⟨pos, args.rmatches, numRounds, 0, .empty⟩
        w' := by
  unfold catsearch
  rcases h with ⟨rfl, rfl⟩ | ⟨hpos, hcur, rfl⟩
  · simp [hargs.addstack, hargs.opensCwd]
  · rw [if_neg (by omega), if_neg (by omega), if_pos hargs.opensCwd, if_neg (by omega)]

/-- A search goes on to the end from wherever it stands. -/
theorem session_of_ready (hargs : ∀ i, (args i).Served) {i pos : ℕ} {w w' : Walk N}
    {objs : Multiset (List N)} {names folders : ℕ} (henters : Enters root pos w w')
    (h : Ready env w' objs names folders) (hf : folders ≤ foldersIn root.entries + 1)
    (hn : pos + names < 2 ^ 32) :
    ∃ recs : List (List N), Session env root args i w pos recs .eof ∧
      (recs : Multiset (List N)) = objs := by
  induction names using Nat.strongRecOn generalizing i pos w w' objs folders with
  | ind names ih =>
    obtain ⟨r, hrun, hspec⟩ := @stackSpec N env _ (args i) (hargs i) (foldersIn root.entries + 2)
      ⟨pos, (args i).rmatches, numRounds, 0, .empty⟩ w' objs names folders h (by omega) hn
    rw [← catsearch_enters (hargs i) henters] at hrun
    cases hspec with
    | eof hres hrecs =>
      refine ⟨r.out.recs, hres ▸ .stop hrun (by rw [hres]; decide), ?_⟩
      rw [hrecs]
      exact zero_add objs
    | @pause objs' names' folders' hres hready hcur hpos hrecs hnames hfolders =>
      have henters' : Enters root r.pos r.walk r.walk :=
        .inr ⟨by simp only at hpos; omega, hcur.symm, rfl⟩
      simp only at hpos hnames
      obtain ⟨recs, hsession, hobjs⟩ := @ih names' (by omega) (i + 1) r.pos r.walk r.walk objs'
        folders' henters' hready (by omega) (by omega)
      refine ⟨r.out.recs ++ recs, .resume hrun hres hsession, ?_⟩
      rw [← Multiset.coe_add, hobjs, hrecs]
      exact zero_add objs

theorem Session.unique {i : ℕ} {recs recs' : List (List N)} {res res' : Result}
    (h : Session env root args i w pos recs res) (h' : Session env root args i w pos recs' res') :
    recs = recs' ∧ res = res' := by
  induction h generalizing recs' with
  | stop hc hne =>
    cases h' with
    | stop hc' =>
      rw [hc] at hc'
      cases hc'
      exact ⟨rfl, rfl⟩
    | resume hc' hok' =>
      rw [hc] at hc'
      cases hc'
      exact absurd hok' hne
  | resume hc hok hrest ih =>
    cases h' with
    | stop hc' hne' =>
      rw [hc] at hc'
      cases hc'
      exact absurd hok hne'
    | resume hc' hok' hrest' =>
      rw [hc] at hc'
      cases hc'
      obtain ⟨h₁, h₂⟩ := ih hrest'
      exact ⟨by rw [h₁], h₂⟩

/-- A search reports every object to report once, and then answers `AFPERR_EOF`. -/
def Exact (env : Env N) (root : Root N) (args : ℕ → Args N) (w : Walk N) : Prop :=
  ∃ recs, Session env root args 0 w 0 recs .eof ∧ recs.Nodup ∧
    ∀ p, p ∈ recs ↔ p ∈ root.objects env

/-- In a tree in which every folder that can be read can also be entered, no object fails and no
position wraps, every search that is served is exact, from whatever the searches before it left in
the statics. -/
theorem exact_of_sound (env : Env N) (root : Root N)
    (hs : SoundIn env root.access root.entries) (hn : namesIn root.entries < 2 ^ 32)
    (args : ℕ → Args N) (hargs : ∀ i, (args i).Served) (w : Walk N) : Exact env root args w := by
  have hready : Ready env ⟨w.curPos, none, none, [.fresh [] root.access root.entries]⟩ _ _ _ :=
    .between fun i hi => mem_singleton.mp hi ▸ hs
  have hf : stackSum Item.folders [Item.fresh [] root.access root.entries] ≤
      foldersIn root.entries + 1 := by
    simp [Item.folders, Item.fresh]
  have hpos : 0 + stackSum Item.names [Item.fresh [] root.access root.entries] < 2 ^ 32 := by
    simpa [Item.names, Item.fresh] using hn
  obtain ⟨recs, hsession, hrecs⟩ :=
    @session_of_ready N env _ root args hargs 0 0 w _ _ _ _ (.inl ⟨rfl, rfl⟩) hready hf hpos
  have hperm : recs.Perm (root.objects env) := by
    rw [← Multiset.coe_eq_coe, hrecs]
    simp only [stackSum_cons, Item.objects, Item.fresh, Root.objects]
    cases root.access.searchable <;> simp
  exact ⟨recs, hsession, hperm.nodup_iff.mpr hs.nodup_objects, fun p => hperm.mem_iff⟩

/-! ### Two folders -/

/-- A folder with a file that meets the criteria, and an empty folder with the given access.  The
folders themselves do not meet the criteria. -/
def twoFolders (acc : Access) : Root ℕ where
  access := ⟨none, none⟩
  entries :=
    [(1, .folder ⟨0, none⟩ .takes ⟨none, none⟩ [(3, .file ⟨1, some 8⟩)]),
     (2, .folder ⟨0, none⟩ .takes acc [])]

/-- A request to which no name is vetoed. -/
def anyName : Env ℕ := ⟨true, fun _ => true⟩

/-- Calls that ask for ten matches within a second. -/
def tenMatches : ℕ → Args ℕ := fun _ => ⟨10, fun _ => false, true, fun _ => true, fun _ => true⟩

/-- The statics before the first search. -/
def Walk.init : Walk ℕ := ⟨0, none, none, []⟩

theorem exact_of_sound_unreadable :
    Exact anyName (twoFolders ⟨some .eacces, some .eacces⟩) tenMatches .init := by
  refine exact_of_sound anyName (twoFolders ⟨some .eacces, some .eacces⟩)
    ⟨.inr ⟨rfl, rfl⟩, fun _ => by decide, fun _ e he _ => ?_⟩ (by decide) tenMatches
    (fun _ => ⟨rfl, fun _ => rfl, fun _ => rfl⟩) .init
  simp only [twoFolders, mem_cons, not_mem_nil, or_false] at he
  rcases he with rfl | rfl
  · refine .folder (by decide) rfl (.inr ⟨rfl, rfl⟩) (fun _ => by decide) fun _ e he _ => ?_
    obtain rfl := mem_singleton.mp he
    exact .file (by decide)
  · exact .folder (by decide) rfl (.inl rfl) (fun _ => by decide) fun _ e he => absurd he (by simp)

/-- A folder that can be read but not entered comes first.  Its stream, which has no names, stays
open, and the search reads it in the place of the stream of the other folder, whose file it does
not report. -/
theorem unenterable_folder_hides_file :
    ¬ Exact anyName (twoFolders ⟨some .eacces, none⟩) tenMatches .init := by
  have hcall : catsearch anyName (twoFolders ⟨some .eacces, none⟩) (tenMatches 0) 0 .init =
      some ⟨.eof, 2, .empty, ⟨0, none, none, []⟩⟩ := rfl
  have hs := Session.stop hcall (by decide)
  rintro ⟨recs, h, _, hmem⟩
  have hnil := (Session.unique hs h).1
  have hfile : [1, 3] ∈ recs := (hmem [1, 3]).mpr (by decide)
  rw [← hnil] at hfile
  cases hfile

end Netatalk.CatsearchWalk
