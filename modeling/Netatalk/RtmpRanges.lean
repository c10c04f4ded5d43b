import Netatalk.Rtmp

/-! # The net ranges in use

`rtmp_new` compares a new route with the routes in use, and `rtmp_replace` only ever exchanges
a route for another one of the same range, so one would expect the ranges in use to stay apart
from each other.  They do as long as no gateway announces a range around a range in use:
`rtmp_new` looks for a route in use that holds one of the two *ends* of the new range.

`Wf` is the shape of the tables that every step keeps, `rtmpTuple_spec` and `asTimer_spec` say
what a step does to the ranges in use, and `used_apart_iff` is the result for whole runs. -/

namespace Netatalk.Rtmp

open List Option

variable {C : Tables → ℕ → Addr → Announced → Prop} {a : Announced} {as : List Announced}
  {s : Tables} {f : Gate → List Gate} {sat : Addr}
  {e : Event} {es : List Event} {g' : Gate} {gs : List Gate} {hops j : ℕ} {p : Packet}
  {r : Bool × Tables} {s' t : Tables} {α : Type}

namespace Tables

/-! ### How the steps change the gateways -/

theorem onFirst_split {g : Gate} (h : gs.find? (fun g => g.sat = sat) = some g) :
    ∃ l r, gs = l ++ g :: r ∧ ∀ f, onFirst sat f gs = l ++ f g ++ r := by
  induction gs with
  | nil => simp at h
  | cons x gs ih =>
    by_cases hx : x.sat = sat
    · simp only [find?_cons, hx, decide_true] at h
      cases h
      exact ⟨[], gs, rfl, fun f => by simp [onFirst, hx]⟩
    · simp only [find?_cons, hx] at h
      obtain ⟨l, r, rfl, hf⟩ := ih h
      exact ⟨x :: l, r, rfl, fun f => by simp [onFirst, hx, hf]⟩

theorem onFirst_absent (h : gs.find? (fun g => g.sat = sat) = none) (f : Gate → List Gate) :
    onFirst sat f gs = gs := by
  induction gs with
  | nil => rfl
  | cons x gs ih =>
    simp only [find?_eq_none, mem_cons, forall_eq_or_imp, decide_eq_true_eq] at h ih
    simp [onFirst, h.1, ih h.2]

variable {e : Option ℕ × Route} {l : List α}

theorem modify_split {i : ℕ} {a : α} (h : l[i]? = some a) :
    ∃ x y, l = x ++ a :: y ∧ ∀ f, l.modify i f = x ++ f a :: y := by
  obtain ⟨hi, rfl⟩ := List.getElem?_eq_some_iff.1 h
  refine ⟨l.take i, l.drop (i + 1), ?_, fun f => ?_⟩
  · simp
  · rw [modify_eq_take_cons_drop hi]

theorem modify_absent {i : ℕ} (h : l[i]? = none) (f : α → α) : l.modify i f = l := by
  rw [List.getElem?_eq_none_iff] at h
  exact modify_eq_self h

variable {s : Tables} {i k : ℕ} {sat : Addr} {g : Gate}

theorem gates_onGate (h : s.gateAt i sat = some g) :
    ∃ L R, s.gates = L ++ g :: R ∧ ∀ f, (s.onGate i sat f).gates = L ++ f g ++ R := by
  obtain ⟨n, hn, hg⟩ := bind_eq_some_iff.1 h
  obtain ⟨x, y, hs, hm⟩ := modify_split hn
  obtain ⟨l, r, hgs, hf⟩ := onFirst_split hg
  refine ⟨x.flatMap Interface.gates ++ l, r ++ y.flatMap Interface.gates, ?_, fun f => ?_⟩
  · simp [gates, hs, hgs]
  · simp [gates, onGate, hm, hf]

theorem gates_onGate_absent (h : s.gateAt i sat = none) (f : Gate → List Gate) :
    (s.onGate i sat f).gates = s.gates := by
  unfold gates onGate
  cases hn : s.interfaces[i]? with
  | none => rw [modify_absent hn]
  | some =>
    obtain ⟨x, y, hs, hm⟩ := modify_split hn
    rw [gateAt, hn] at h
    rw [hm, onFirst_absent h, ← hs]

theorem known_onGate (f : Gate → List Gate) (hf : ∀ g, ((f g).flatMap Gate.rt).Perm g.rt) :
    (s.onGate i sat f).known.Perm s.known := by
  unfold known
  cases h : s.gateAt i sat with
  | none => rw [gates_onGate_absent h]
  | some g =>
    obtain ⟨L, R, hs, ho⟩ := gates_onGate h
    rw [ho, hs]
    simp only [flatMap_append, append_assoc]
    exact ((hf g).append_right _).append_left _

theorem mem_gates_onGate (h : g' ∈ (s.onGate i sat f).gates) :
    g' ∈ s.gates ∨ ∃ g ∈ s.gates, s.gateAt i sat = some g ∧ g' ∈ f g := by
  cases hg : s.gateAt i sat with
  | none => exact .inl (by rwa [gates_onGate_absent hg] at h)
  | some g =>
    obtain ⟨L, R, hs, ho⟩ := gates_onGate hg
    rw [ho] at h
    rw [hs]
    simp only [mem_append, mem_cons] at h ⊢
    obtain (h | h) | h := h
    · exact .inl (.inl h)
    · exact .inr ⟨g, .inr (.inl rfl), rfl, h⟩
    · exact .inl (.inr (.inr h))

theorem mem_known {k : ℕ} : k ∈ s.known ↔ ∃ g ∈ s.gates, k ∈ g.rt := by
  simp [known]

@[simp] theorem gates_free : (s.free k).gates =
    s.gates.map fun g => { g with rt := g.rt.filter (· ≠ k) } := by
  simp [free, gates, flatMap_map, map_flatMap]

theorem known_free : (s.free k).known = s.known.filter (· ≠ k) := by
  simp [known, flatMap_map, filter_flatMap]

/-! ### The parts a step leaves alone -/

section parts
variable (s : Tables) (f : Gate → List Gate) (h : Route → Route)

@[simp] theorem heap_onGate : (s.onGate i sat f).heap = s.heap := rfl
@[simp] theorem inuse_onGate : (s.onGate i sat f).inuse = s.inuse := rfl

theorem map_modify_of_eq {β : Type} {p : α → β} {q : α → α} (hq : ∀ a, p (q a) = p a)
    (l : List α) (i : ℕ) : (l.modify i q).map p = l.map p := by
  cases hn : l[i]? with
  | none => rw [modify_absent hn]
  | some =>
    obtain ⟨x, y, hs, hm⟩ := modify_split hn
    rw [hm, hs]
    simp [hq]

@[simp] theorem rt_onGate :
    (s.onGate i sat f).interfaces.map Interface.rt = s.interfaces.map Interface.rt := by
  exact map_modify_of_eq (fun n => by rfl) _ _

@[simp] theorem length_onGate : (s.onGate i sat f).interfaces.length = s.interfaces.length := by
  simp [onGate]

@[simp] theorem rt_free : (s.free k).interfaces.map Interface.rt =
    s.interfaces.map Interface.rt := by
  simp [free, Function.comp_def, Interface.rt]

end parts

/-- The addresses of the gateways, interface by interface. -/
def sats (s : Tables) : List (List Addr) := s.interfaces.map fun n => n.gates.map Gate.sat

theorem gateAt_isSome : (s.gateAt i sat).isSome ↔ ∃ l, s.sats[i]? = some l ∧ sat ∈ l := by
  unfold gateAt sats
  rw [getElem?_map]
  cases s.interfaces[i]? with
  | none | some => simp

theorem sats_onGate (hf : ∀ g, (f g).map Gate.sat = [g.sat]) :
    (s.onGate i sat f).sats = s.sats := by
  have first (gs : List Gate) : (onFirst sat f gs).map Gate.sat = gs.map Gate.sat := by
    induction gs with
    | nil => rfl
    | cons g gs ih =>
      unfold onFirst
      split
      · simp [hf]
      · simp [ih]
  exact map_modify_of_eq (fun n => first n.gates) _ _

/-! ### The shape of the tables -/

/-- What every step keeps: a route stands on one gateway and in the in-use list once, its range
is not upside down, and a gateway has one route for a range. -/
structure Wf (s : Tables) : Prop where
  nodup : s.known.Nodup
  fresh : ∀ k ∈ s.known, k < s.fresh
  inuse_nodup : s.inuse.Nodup
  inuse_known : s.inuse ⊆ s.known
  ordered : ∀ k ∈ s.known, (s.heap k).firstnet ≤ (s.heap k).lastnet
  hops_pos : ∀ k ∈ s.known, 0 < (s.heap k).hops
  iface : ∀ k ∈ s.known, (s.heap k).iface < s.interfaces.length
  unique : ∀ g ∈ s.gates, ∀ j ∈ g.rt, ∀ k ∈ g.rt, (s.heap j).range = (s.heap k).range → j = k

theorem range_setRoute {f : Route → Route} (hf : (f (s.heap k)).range = (s.heap k).range) (j : ℕ) :
    ((s.setRoute k f).heap j).range = (s.heap j).range := by
  by_cases h : j = k
  · subst h
    simp [setRoute, hf]
  · simp [setRoute, h]

/-- A change of a route's hops or age. -/
theorem Wf.setRoute (hs : s.Wf) {f : Route → Route}
    (hf : (f (s.heap k)).range = (s.heap k).range ∧ (f (s.heap k)).iface = (s.heap k).iface)
    (hp : 0 < (s.heap k).hops → 0 < (f (s.heap k)).hops) : (s.setRoute k f).Wf := by
  have hr := range_setRoute hf.1
  refine { hs with
    ordered := fun j hj => ?_, hops_pos := fun j hj => ?_, iface := fun j hj => ?_
    unique := fun g hg j hj l hl h => hs.unique g hg j hj l hl (by rwa [hr, hr] at h) }
  · have := hr j
    simp only [Route.range, Prod.mk.injEq] at this
    rw [this.1, this.2]
    exact hs.ordered j hj
  · by_cases h : j = k
    · subst h
      simpa [Tables.setRoute] using hp (hs.hops_pos j hj)
    · simpa [Tables.setRoute, h] using hs.hops_pos j hj
  · by_cases h : j = k
    · subst h
      simpa [Tables.setRoute, hf.2] using hs.iface j hj
    · simpa [Tables.setRoute, h] using hs.iface j hj

theorem Wf.regroup (hs : s.Wf) {n : List Interface}
    (hlen : n.length = s.interfaces.length)
    (hk : ({ s with interfaces := n } : Tables).known.Perm s.known)
    (hg : ∀ g ∈ ({ s with interfaces := n } : Tables).gates, g.rt = [] ∨
      ∃ g₀ ∈ s.gates, g.rt ⊆ g₀.rt) : ({ s with interfaces := n } : Tables).Wf := by
  refine ⟨hk.nodup_iff.2 hs.nodup, fun k h => hs.fresh k (hk.mem_iff.1 h), hs.inuse_nodup,
    fun k h => hk.mem_iff.2 (hs.inuse_known h), fun k h => hs.ordered k (hk.mem_iff.1 h),
    fun k h => hs.hops_pos k (hk.mem_iff.1 h), fun k h => ?_, fun g hmem j hj k hk' => ?_⟩
  · exact (hs.iface k (hk.mem_iff.1 h)).trans_eq hlen.symm
  · obtain hg | ⟨g₀, hg₀, sub⟩ := hg g hmem
    · rw [hg] at hj
      exact absurd hj not_mem_nil
    · exact hs.unique g₀ hg₀ j (sub hj) k (sub hk')

theorem Wf.onGate (hs : s.Wf) (hf : ∀ g, ((f g).flatMap Gate.rt).Perm g.rt) :
    (s.onGate i sat f).Wf := by
  refine hs.regroup (length_onGate s f) (known_onGate f hf) fun g hg => .inr ?_
  obtain hg | ⟨g₀, hg₀, -, hg⟩ := mem_gates_onGate hg
  · exact ⟨g, hg, .refl _⟩
  · exact ⟨g₀, hg₀, fun x hx => (hf g₀).subset (mem_flatMap.2 ⟨g, hg, hx⟩)⟩

theorem Wf.addinuse (hs : s.Wf) (hk : k ∈ s.known) (hu : k ∉ s.inuse) : (s.addinuse k).Wf :=
  { hs with
    inuse_nodup := nodup_cons.2 ⟨hu, hs.inuse_nodup⟩
    inuse_known := cons_subset.2 ⟨hk, hs.inuse_known⟩ }

theorem Wf.delinuse (hs : s.Wf) (r : Option ℕ) : (s.delinuse r).Wf := by
  cases r with
  | none => exact hs
  | some k =>
    exact { hs with
      inuse_nodup := hs.inuse_nodup.erase k
      inuse_known := List.Subset.trans (erase_subset) hs.inuse_known }

theorem Wf.free (hs : s.Wf) : (s.free k).Wf := by
  have hk : ∀ j, j ∈ (s.free k).known → j ∈ s.known := by
    intro j hj
    rw [known_free] at hj
    exact mem_of_mem_filter hj
  refine ⟨?_, fun j hj => hs.fresh j (hk j hj), hs.inuse_nodup.erase k, fun j hj => ?_,
    fun j hj => hs.ordered j (hk j hj), fun j hj => hs.hops_pos j (hk j hj), fun j hj => ?_,
    fun g hg j hj l hl => ?_⟩
  · rw [known_free]
    exact hs.nodup.filter _
  · obtain ⟨hne, hj⟩ := (hs.inuse_nodup.mem_erase_iff).1 hj
    rw [known_free]
    exact mem_filter.2 ⟨hs.inuse_known hj, by simpa using hne⟩
  · simpa [Tables.free] using hs.iface j (hk j hj)
  · rw [gates_free, List.mem_map] at hg
    obtain ⟨g₀, hg₀, rfl⟩ := hg
    exact hs.unique g₀ hg₀ j (mem_of_mem_filter hj) l (mem_of_mem_filter hl)

theorem endIn_self {r : ℕ × ℕ} (h : r.1 ≤ r.2) : endIn r r = true := by
  simp [endIn, h]

theorem known_addRoute {a : Announced} (hg : s.gateAt i sat = some g) :
    (s.addRoute i sat a).known.Perm (s.fresh :: s.known) := by
  obtain ⟨L, R, hL, ho⟩ := gates_onGate (s := { s with
    heap := Function.update s.heap s.fresh
      ⟨a.firstnet, a.lastnet, a.hops, stateGood, a.extended, i⟩
    fresh := s.fresh + 1 }) hg
  unfold known Tables.addRoute
  rw [ho, show s.gates = L ++ g :: R from hL]
  simp only [flatMap_append, flatMap_cons, append_assoc]
  rw [← append_assoc, ← append_assoc _ g.rt]
  exact perm_middle

theorem heap_addRoute_fresh (s : Tables) (i : ℕ) (sat : Addr) (a : Announced) :
    (s.addRoute i sat a).heap s.fresh =
      ⟨a.firstnet, a.lastnet, a.hops, stateGood, a.extended, i⟩ := by
  simp [addRoute]

theorem heap_addRoute_of_ne (h : k ≠ s.fresh) : (s.addRoute i sat a).heap k = s.heap k := by
  simp [addRoute, h]

/-- A gateway after the new route was added: the old routes, or the new one behind them. -/
theorem mem_gates_addRoute (h : g' ∈ (s.addRoute i sat a).gates) :
    g' ∈ s.gates ∨ ∃ g, g ∈ s.gates ∧ s.gateAt i sat = some g ∧
      g' = { g with rt := g.rt ++ [s.fresh] } := by
  obtain h | ⟨g, hg, hat, h⟩ := mem_gates_onGate h
  · exact .inl h
  · exact .inr ⟨g, hg, hat, mem_singleton.1 h⟩

/-- A route that its gateway did not have yet. -/
theorem Wf.addRoute (hs : s.Wf) (hg : s.gateAt i sat = some g)
    (hi : i < s.interfaces.length) (ha : a.firstnet ≤ a.lastnet) (hp : 0 < a.hops)
    (hn : s.routeFor i sat a = none) : (s.addRoute i sat a).Wf := by
  have hk := known_addRoute (a := a) hg
  have old (j : ℕ) (hj : j ∈ s.known) : j ≠ s.fresh := (hs.fresh j hj).ne
  have cases (P : ℕ → Prop) (h₀ : P s.fresh) (h₁ : ∀ j ∈ s.known, P j) :
      ∀ j ∈ (s.addRoute i sat a).known, P j := by
    intro j hj
    obtain rfl | hj := mem_cons.1 (hk.mem_iff.1 hj)
    · exact h₀
    · exact h₁ j hj
  refine ⟨?_, cases _ (Nat.lt_succ_self _) fun j hj => Nat.lt_succ_of_lt (hs.fresh j hj),
    hs.inuse_nodup, fun j hj => hk.mem_iff.2 (mem_cons_of_mem _ (hs.inuse_known hj)),
    cases _ ?_ fun j hj => ?_, cases _ ?_ fun j hj => ?_, cases _ ?_ fun j hj => ?_,
    fun g' hg' => ?_⟩
  · rw [hk.nodup_iff, nodup_cons]
    exact ⟨fun h => old _ h rfl, hs.nodup⟩
  · rwa [heap_addRoute_fresh]
  · rw [heap_addRoute_of_ne (old j hj)]
    exact hs.ordered j hj
  · rwa [heap_addRoute_fresh]
  · rw [heap_addRoute_of_ne (old j hj)]
    exact hs.hops_pos j hj
  · simpa [Tables.addRoute] using hi
  · rw [heap_addRoute_of_ne (old j hj)]
    simpa [Tables.addRoute] using hs.iface j hj
  · obtain hg' | ⟨g₀, hmem, hat, rfl⟩ := mem_gates_addRoute hg'
    · intro j hj l hl h
      rw [heap_addRoute_of_ne (old j (mem_known.2 ⟨g', hg', hj⟩)),
        heap_addRoute_of_ne (old l (mem_known.2 ⟨g', hg', hl⟩))] at h
      exact hs.unique g' hg' j hj l hl h
    · -- an old route of the gateway with the new range would have been found
      have apart (j : ℕ) (hj : j ∈ g₀.rt) : (s.heap j).range ≠ a.range := by
        intro h
        rw [routeFor, hat, bind_some, find?_eq_none] at hn
        exact hn j hj (by rw [h]; exact endIn_self ha)
      have oldAt (j : ℕ) (hj : j ∈ g₀.rt) : j ≠ s.fresh := old j (mem_known.2 ⟨g₀, hmem, hj⟩)
      intro j hj l hl h
      simp only [mem_append, mem_singleton] at hj hl
      obtain hj | rfl := hj <;> obtain hl | rfl := hl
      · rw [heap_addRoute_of_ne (oldAt j hj), heap_addRoute_of_ne (oldAt l hl)] at h
        exact hs.unique g₀ hmem j hj l hl h
      · rw [heap_addRoute_of_ne (oldAt j hj), heap_addRoute_fresh] at h
        exact absurd h (apart j hj)
      · rw [heap_addRoute_of_ne (oldAt l hl), heap_addRoute_fresh] at h
        exact absurd h.symm (apart l hl)
      · rfl

theorem gates_newGate {n : Interface} (hn : s.interfaces[i]? = some n) : ∃ L R, s.gates = L ++ R ∧
      ({ s with interfaces := s.interfaces.modify i fun n =>
          { n with gates := ⟨sat, stateGood, []⟩ :: n.gates } } : Tables).gates =
        L ++ ⟨sat, stateGood, []⟩ :: R := by
  obtain ⟨x, y, hs, hm⟩ := modify_split hn
  refine ⟨x.flatMap Interface.gates, n.gates ++ y.flatMap Interface.gates, ?_, ?_⟩
  · simp [gates, hs]
  · unfold gates
    simp only [hm]
    simp

theorem known_gateUp : (s.gateUp i sat).known.Perm s.known := by
  unfold gateUp
  split
  · exact known_onGate _ fun g => by simp
  · cases hn : s.interfaces[i]? with
    | none => rw [modify_absent hn]
    | some n =>
      obtain ⟨L, R, hL, hg⟩ := @gates_newGate s i sat n hn
      simp [known, hg, hL]

theorem Wf.gateUp (hs : s.Wf) : (s.gateUp i sat).Wf := by
  have hknown := @known_gateUp s i sat
  revert hknown
  fun_cases Tables.gateUp s i sat with
  | case1 => exact fun _ => hs.onGate fun g => by simp
  | case2 =>
    intro hknown
    cases hn : s.interfaces[i]? with
    | none =>
      rw [modify_absent hn]
      exact hs
    | some n =>
      obtain ⟨L, R, hL, hg⟩ := @gates_newGate s i sat n hn
      refine hs.regroup (by simp) hknown fun g hmem => ?_
      rw [hg, mem_append, mem_cons] at hmem
      obtain h | rfl | h := hmem
      · exact .inr ⟨g, by simp [hL, h], .refl _⟩
      · exact .inl rfl
      · exact .inr ⟨g, by simp [hL, h], .refl _⟩

theorem gateUp_isSome (hi : i < s.interfaces.length) : ((s.gateUp i sat).gateAt i sat).isSome := by
  unfold gateUp
  split
  · rename_i h
    rw [gateAt_isSome] at h ⊢
    rwa [sats_onGate fun g => by simp]
  · simp [gateAt, hi]

@[simp] theorem rt_gateUp :
    (s.gateUp i sat).interfaces.map Interface.rt = s.interfaces.map Interface.rt := by
  unfold gateUp
  split
  · exact rt_onGate s _
  · exact map_modify_of_eq (fun n => by rfl) _ _

@[simp] theorem heap_gateUp : (s.gateUp i sat).heap = s.heap := by
  unfold gateUp
  split <;> rfl

@[simp] theorem inuse_gateUp : (s.gateUp i sat).inuse = s.inuse := by
  unfold gateUp
  split <;> rfl

/-! ### The ranges in use -/

theorem used_eq (s : Tables) : s.used = (s.interfaces.map Interface.rt).map Route.range ++
    s.inuse.map fun k => (s.heap k).range := by
  simp [used, usedRoutes]

theorem used_onGate (f : Gate → List Gate) : (s.onGate i sat f).used = s.used := by
  simp [used_eq]

theorem used_gateUp : (s.gateUp i sat).used = s.used := by
  simp [used_eq]

theorem used_setRoute {f : Route → Route} (hf : (f (s.heap k)).range = (s.heap k).range) :
    (s.setRoute k f).used = s.used := by
  rw [used_eq, used_eq]
  exact congrArg _ (map_congr_left fun j _ => range_setRoute hf j)

theorem used_addRoute (hs : s.Wf) : (s.addRoute i sat a).used = s.used := by
  rw [used_eq, used_eq]
  refine congrArg₂ _ ?_ (map_congr_left fun j hj => ?_)
  · simp [addRoute]
  · rw [heap_addRoute_of_ne (hs.fresh j (hs.inuse_known hj)).ne]

theorem used_addinuse (s : Tables) (k : ℕ) :
    (s.addinuse k).used.Perm ((s.heap k).range :: s.used) := by
  rw [used_eq, used_eq]
  exact perm_middle

theorem used_delinuse (hk : k ∈ s.inuse) :
    s.used.Perm ((s.heap k).range :: (s.delinuse (some k)).used) := by
  rw [used_eq, used_eq]
  refine List.Perm.trans ?_ perm_middle
  exact ((perm_cons_erase hk).map fun j => (s.heap j).range).append_left _

theorem used_swap (hj : j ∈ s.inuse) (h : (s.heap j).range = (s.heap k).range) :
    ((s.delinuse (some j)).addinuse k).used.Perm s.used := by
  refine (used_addinuse _ _).trans ?_
  have := used_delinuse hj
  rw [h] at this
  exact this.symm

theorem used_free (s : Tables) (k : ℕ) : (s.free k).used.Sublist s.used := by
  rw [used_eq, used_eq, rt_free]
  exact (erase_sublist.map _).append_left _

theorem used_free_of_not_mem (hk : k ∉ s.inuse) : (s.free k).used = s.used := by
  rw [used_eq, used_eq, rt_free]
  simp [free, erase_of_not_mem hk]

/-! ### `rtmp_new` -/

/-- The walk passes every route in use. -/
theorem mem_walk (hs : s.Wf) : e ∈ s.walk ↔ (∃ n ∈ s.interfaces, e = (none, n.rt)) ∨
      ∃ k ∈ s.inuse, e = (some k, s.heap k) := by
  simp only [walk, mem_flatMap, mem_cons, List.mem_map, mem_filter,
    decide_eq_true_eq]
  constructor
  · rintro ⟨n, hn, rfl | ⟨k, ⟨hk, -⟩, rfl⟩⟩
    · exact .inl ⟨n.1, fst_mem_of_mem_zipIdx hn, rfl⟩
    · exact .inr ⟨k, hk, rfl⟩
  · rintro (⟨n, hn, rfl⟩ | ⟨k, hk, rfl⟩)
    · obtain ⟨i, hi, rfl⟩ := getElem_of_mem hn
      exact ⟨(s.interfaces[i], i), mk_mem_zipIdx_iff_getElem?.2 (by simp), .inl rfl⟩
    · have hi := hs.iface k (hs.inuse_known hk)
      exact ⟨(s.interfaces[(s.heap k).iface], (s.heap k).iface),
        mk_mem_zipIdx_iff_getElem?.2 (by simp), .inr ⟨k, ⟨hk, rfl⟩, rfl⟩⟩

theorem mem_usedRoutes {r : Route} : r ∈ s.usedRoutes ↔
    (∃ n ∈ s.interfaces, n.rt = r) ∨ ∃ k ∈ s.inuse, s.heap k = r := by
  simp [usedRoutes]

theorem snd_mem_usedRoutes (hs : s.Wf) (h : e ∈ s.walk) : e.2 ∈ s.usedRoutes := by
  rw [mem_usedRoutes]
  obtain ⟨n, hn, rfl⟩ | ⟨k, hk, rfl⟩ := (mem_walk hs).1 h
  · exact .inl ⟨n, hn, rfl⟩
  · exact .inr ⟨k, hk, rfl⟩

/-- The three things `rtmp_new` can do. -/
theorem rtmpNew_cases (hs : s.Wf) (hk : k ∈ s.known) :
    ((∀ u ∈ s.used, endIn u (s.heap k).range = false) ∧ s.rtmpNew k = s.addinuse k) ∨
    ((∃ r ∈ s.usedRoutes, endIn r.range (s.heap k).range = true ∧
      (r.range ≠ (s.heap k).range ∨ r.hops < (s.heap k).hops)) ∧ s.rtmpNew k = s) ∨
    ∃ j ∈ s.inuse, (s.heap j).range = (s.heap k).range ∧ (s.heap k).hops ≤ (s.heap j).hops ∧
      s.rtmpNew k = (s.delinuse (some j)).addinuse k := by
  unfold rtmpNew
  cases hfind : s.walk.find? fun e => endIn e.2.range (s.heap k).range with
  | none =>
    rw [find?_eq_none] at hfind
    refine .inl ⟨fun u hu => ?_, rfl⟩
    obtain ⟨r, hr, rfl⟩ := List.mem_map.1 hu
    obtain ⟨n, hn, rfl⟩ | ⟨j, hj, rfl⟩ := mem_usedRoutes.1 hr
    · simpa using hfind (none, n.rt) ((mem_walk hs).2 (.inl ⟨n, hn, rfl⟩))
    · simpa using hfind (some j, s.heap j) ((mem_walk hs).2 (.inr ⟨j, hj, rfl⟩))
  | some e =>
    have hmem := mem_of_find?_eq_some hfind
    have hend : endIn e.2.range (s.heap k).range = true := by
      simpa using find?_some hfind
    have hused := snd_mem_usedRoutes hs hmem
    refine .inr ?_
    simp only
    by_cases hr : e.2.range ≠ (s.heap k).range
    · rw [if_pos hr]
      exact .inl ⟨⟨e.2, hused, hend, .inl hr⟩, rfl⟩
    by_cases hh : e.2.hops < (s.heap k).hops
    · rw [if_neg hr, if_pos hh]
      exact .inl ⟨⟨e.2, hused, hend, .inr hh⟩, rfl⟩
    · rw [if_neg hr, if_neg hh]
      -- an interface's own route has no hops, so it never gives way
      obtain ⟨n, hn, rfl⟩ | ⟨j, hj, rfl⟩ := (mem_walk hs).1 hmem
      · exact absurd (hs.hops_pos k hk) hh
      · exact .inr ⟨j, hj, not_not.1 hr, not_lt.1 hh, rfl⟩

/-! ### `rtmp_replace` -/

theorem mem_candidates (hs : s.Wf) {range : ℕ × ℕ} :
    j ∈ s.candidates range ↔ j ∈ s.known ∧ (s.heap j).range = range := by
  rw [candidates, mem_filterMap, mem_known]
  constructor
  · rintro ⟨g, hg, hj⟩
    exact ⟨⟨g, hg, mem_of_find?_eq_some hj⟩, by simpa using find?_some hj⟩
  · rintro ⟨⟨g, hg, hj⟩, rfl⟩
    refine ⟨g, hg, ?_⟩
    cases hf : g.rt.find? fun r => (s.heap r).range = (s.heap j).range with
    | none => exact absurd (by simp) ((find?_eq_none.1 hf) j hj)
    | some l =>
      have hl : (s.heap l).range = (s.heap j).range := by simpa using find?_some hf
      rw [hs.unique g hg l (mem_of_find?_eq_some hf) j hj hl]

/-- The walk over the candidates ends with one of them that has the fewest hops. -/
theorem foldl_better (heap : ℕ → Route) (l : List ℕ) (f : ℕ) :
    ∃ m ∈ f :: l, l.foldl (better heap) (some f) = some m ∧
      ∀ j ∈ f :: l, (heap m).hops ≤ (heap j).hops := by
  induction l generalizing f with
  | nil => exact ⟨f, by simp, rfl, by simp⟩
  | cons r l ih =>
    rw [foldl_cons, better]
    split_ifs with h
    · obtain ⟨m, hm, he, hmin⟩ := ih r
      refine ⟨m, mem_cons_of_mem _ hm, he, forall_mem_cons.2 ⟨?_, hmin⟩⟩
      exact (hmin r (by simp)).trans h.le
    · obtain ⟨m, hm, he, hmin⟩ := ih f
      refine ⟨m, ?_, he, ?_⟩
      · obtain rfl | hm := mem_cons.1 hm
        · simp
        · simp [hm]
      · intro j hj
        simp only [mem_cons] at hj
        obtain rfl | rfl | hj := hj
        · exact hmin j (by simp)
        · exact (hmin f (by simp)).trans (not_lt.1 h)
        · exact hmin j (by simp [hj])

/-- The best known route of the range of `k`, and what `rtmp_replace` makes of it. -/
theorem rtmpReplace_cases (hs : s.Wf) (hk : k ∈ s.inuse) :
    ∃ f ∈ s.known, (s.heap f).range = (s.heap k).range ∧
      (∀ j ∈ s.known, (s.heap j).range = (s.heap k).range → (s.heap f).hops ≤ (s.heap j).hops) ∧
      ((f = k ∧ s.rtmpReplace k = some (true, s)) ∨
        (f ≠ k ∧ f ∈ s.inuse ∧ s.rtmpReplace k = none) ∨
        (f ≠ k ∧ f ∉ s.inuse ∧ s.rtmpReplace k = some (false,
          if (s.heap k).state = stateBad then ((s.delinuse (some k)).addinuse f).free k
          else (s.delinuse (some k)).addinuse f))) := by
  have hmem : k ∈ s.candidates (s.heap k).range :=
    (mem_candidates hs).2 ⟨hs.inuse_known hk, rfl⟩
  unfold rtmpReplace
  cases hl : s.candidates (s.heap k).range with
  | nil => simp [hl] at hmem
  | cons c l =>
    obtain ⟨f, hf, he, hmin⟩ := foldl_better s.heap l c
    have hc (j : ℕ) : j ∈ c :: l ↔ j ∈ s.known ∧ (s.heap j).range = (s.heap k).range := by
      rw [← hl, mem_candidates hs]
    refine ⟨f, ((hc f).1 hf).1, ((hc f).1 hf).2, fun j hj hr => hmin j ((hc j).2 ⟨hj, hr⟩), ?_⟩
    rw [foldl_cons, show better s.heap none c = some c from rfl, he]
    simp only
    by_cases hfk : f = k
    · exact .inl ⟨hfk, if_pos hfk⟩
    by_cases hu : f ∈ s.inuse
    · exact .inr (.inl ⟨hfk, hu, by rw [if_neg hfk, if_pos hu]⟩)
    · exact .inr (.inr ⟨hfk, hu, by rw [if_neg hfk, if_neg hu]⟩)

/-! ### Steps that keep the ranges in use -/

/-- The ranges in use are the same, and so are the gateways. -/
structure Keeps (s s' : Tables) : Prop where
  wf : s'.Wf
  sats : s'.sats = s.sats
  used : s'.used.Perm s.used

theorem Keeps.refl (hs : s.Wf) : Keeps s s := ⟨hs, rfl, List.Perm.refl _⟩

theorem Keeps.trans {s u : Tables} (h : Keeps s t) (h' : Keeps t u) : Keeps s u :=
  ⟨h'.wf, h'.sats.trans h.sats, h'.used.trans h.used⟩

theorem keeps_setHops (hs : s.Wf) {h : ℕ} (hh : 0 < h) : Keeps s (s.setHops k h) :=
  ⟨hs.setRoute ⟨rfl, rfl⟩ fun _ => hh, rfl, by rw [setHops, used_setRoute rfl]⟩

theorem keeps_setState (hs : s.Wf) (t : ℕ) : Keeps s (s.setState k t) :=
  ⟨hs.setRoute ⟨rfl, rfl⟩ fun h => h, rfl, by rw [setState, used_setRoute rfl]⟩

theorem keeps_swap (hs : s.Wf) (hj : j ∈ s.inuse) (hk : k ∈ s.known) (hu : k ∉ s.inuse)
    (h : (s.heap j).range = (s.heap k).range) : Keeps s ((s.delinuse (some j)).addinuse k) :=
  ⟨(hs.delinuse (some j)).addinuse hk fun h => hu (mem_of_mem_erase h), rfl,
    used_swap hj h⟩

theorem not_mem_swap (hs : s.Wf) (h : j ≠ k) : j ∉ ((s.delinuse (some j)).addinuse k).inuse := by
  rw [addinuse, mem_cons, not_or]
  exact ⟨h, hs.inuse_nodup.not_mem_erase⟩

theorem keeps_rtmpReplace (hs : s.Wf) (hk : k ∈ s.inuse)
    (h : s.rtmpReplace k = some r) : Keeps s r.2 := by
  obtain ⟨f, hf, hr, -, ⟨-, he⟩ | ⟨-, -, he⟩ | ⟨hne, hu, he⟩⟩ := rtmpReplace_cases hs hk
  · obtain rfl : r = _ := some.inj (h.symm.trans he)
    exact .refl hs
  · exact absurd (h.symm.trans he) (by simp)
  · obtain rfl : r = _ := some.inj (h.symm.trans he)
    have hswap := keeps_swap hs hk hf hu hr.symm
    split
    · exact hswap.trans ⟨hswap.wf.free, by simp [sats, free],
        by rw [used_free_of_not_mem (not_mem_swap hs (Ne.symm hne))]⟩
    · exact hswap

/-! ### One tuple -/

/-- The hop count of a known route as a tuple leaves it. -/
theorem updateHops_cases (h : s.updateHops k hops = some t) :
    (t = s ∧ ((s.heap k).hops = hops ∨ (s.heap k).hops = hopsPoison ∧ hopsMax < hops)) ∨
    (k ∈ s.inuse ∧ hops < (s.heap k).hops ∧ t = s.setHops k hops) ∨
    (k ∈ s.inuse ∧ ∃ h', (h' = hopsPoison ∨ h' = hops) ∧ ∃ b,
      (s.setHops k h').rtmpReplace k = some (b, t)) ∨
    (k ∉ s.inuse ∧ t = s.setHops k hops) := by
  have dead : ¬hops < ((s.setHops k hops).heap k).hops := by simp [setHops, setRoute]
  unfold updateHops at h
  simp only [dead, if_false] at h
  split_ifs at h with hc hk hlt
  · exact .inr (.inl ⟨hk, hlt, (some.inj h).symm⟩)
  · obtain ⟨r, hr, rfl⟩ := map_eq_some_iff.1 h
    exact .inr (.inr (.inl ⟨hk, _, .inl rfl, r.1, hr⟩))
  · obtain ⟨r, hr, rfl⟩ := map_eq_some_iff.1 h
    exact .inr (.inr (.inl ⟨hk, _, .inr rfl, r.1, hr⟩))
  · exact .inr (.inr (.inr ⟨hk, (some.inj h).symm⟩))
  · refine .inl ⟨(some.inj h).symm, ?_⟩
    rw [not_and_or, not_not, not_or, not_not, not_le] at hc
    exact hc

theorem keeps_updateHops (hs : s.Wf) (hp : 0 < hops)
    (h : s.updateHops k hops = some t) : Keeps s t := by
  obtain ⟨rfl, -⟩ | ⟨-, -, rfl⟩ | ⟨hk, h', hh', b, hr⟩ | ⟨-, rfl⟩ := updateHops_cases h
  · exact .refl hs
  · exact keeps_setHops hs hp
  · have pos : 0 < h' := by
      obtain rfl | rfl := hh'
      · decide
      · exact hp
    have hset : Keeps s (s.setHops k h') := keeps_setHops hs pos
    exact hset.trans (keeps_rtmpReplace hset.wf hk hr)
  · exact keeps_setHops hs hp

/-- What a tuple can do: it contradicts what the gateway said before, it is about a route of
the gateway, it is too far away, or it is a new route. -/
theorem rtmpTuple_cases (h : s.rtmpTuple i sat a = some r) :
    (r = (false, s) ∧ ∃ k, s.routeFor i sat a = some k ∧
      ((s.heap k).range ≠ a.range ∨ (s.heap k).extended ≠ a.extended)) ∨
    (∃ k t, s.routeFor i sat a = some k ∧ (s.heap k).range = a.range ∧
      (s.setState k stateGood).updateHops k a.hops = some t ∧
      r = (true, t.onGate i sat fun g => [turn k g])) ∨
    (s.routeFor i sat a = none ∧ hopsMax < a.hops ∧ r = (true, s)) ∨
    (s.routeFor i sat a = none ∧ a.hops ≤ hopsMax ∧
      r = (true, (s.addRoute i sat a).rtmpNew s.fresh)) := by
  unfold rtmpTuple at h
  cases hk : s.routeFor i sat a with
  | some k =>
    rw [hk] at h
    simp only at h
    split_ifs at h with hc
    · exact .inl ⟨(some.inj h).symm, k, rfl, hc⟩
    · obtain ⟨t, ht, rfl⟩ := map_eq_some_iff.1 h
      exact .inr (.inl ⟨k, t, rfl, not_not.1 (not_or.1 hc).1, ht, rfl⟩)
  | none =>
    rw [hk] at h
    split_ifs at h with hm
    · exact .inr (.inr (.inl ⟨rfl, hm, (some.inj h).symm⟩))
    · exact .inr (.inr (.inr ⟨rfl, not_lt.1 hm, (some.inj h).symm⟩))

end Tables

open Tables

/-- The tuple puts a range in use that was not: its gateway has no route for it, it is near
enough, and no range in use holds one of its ends. -/
def GoesInUse (s : Tables) (i : ℕ) (sat : Addr) (a : Announced) : Prop :=
  s.routeFor i sat a = none ∧ a.hops ≤ hopsMax ∧ ∀ u ∈ s.used, endIn u a.range = false

namespace Tables

variable {s : Tables} {i k : ℕ} {sat : Addr} {g : Gate}

theorem turn_perm (k : ℕ) (g : Gate) : (turn k g).rt.Perm g.rt := rotate_perm _ _

theorem sats_addRoute (s : Tables) (i : ℕ) (sat : Addr) (a : Announced) :
    (s.addRoute i sat a).sats = s.sats :=
  sats_onGate fun _ => rfl

theorem lt_length_of_gateAt (h : (s.gateAt i sat).isSome) : i < s.interfaces.length := by
  obtain ⟨l, hl, -⟩ := gateAt_isSome.1 h
  have := (List.getElem?_eq_some_iff.1 hl).1
  simpa [sats] using this

/-- One tuple adds its range to the ranges in use, or leaves them. -/
theorem rtmpTuple_spec (hs : s.Wf) (hg : (s.gateAt i sat).isSome) (ha : a.firstnet ≤ a.lastnet)
    (hp : 0 < a.hops) (h : s.rtmpTuple i sat a = some r) : r.2.Wf ∧ r.2.sats = s.sats ∧
      ((GoesInUse s i sat a ∧ r.2.used.Perm (a.range :: s.used)) ∨
        (¬GoesInUse s i sat a ∧ r.2.used.Perm s.used)) := by
  obtain ⟨rfl, k, hk, -⟩ | ⟨k, t, hk, -, ht, rfl⟩ | ⟨hn, hm, rfl⟩ | ⟨hn, hm, rfl⟩ :=
    rtmpTuple_cases h
  · exact ⟨hs, rfl, .inr ⟨fun h => by simp [h.1] at hk, .refl _⟩⟩
  · have h₀ : Keeps s (s.setState k stateGood) := keeps_setState hs _
    have h₁ := h₀.trans (keeps_updateHops h₀.wf hp ht)
    have h₂ : Keeps s (t.onGate i sat fun g => [turn k g]) :=
      h₁.trans ⟨h₁.wf.onGate fun g => by simpa using turn_perm k g,
        sats_onGate fun g => by simp [turn], by rw [used_onGate]⟩
    exact ⟨h₂.wf, h₂.sats, .inr ⟨fun h => by simp [h.1] at hk, h₂.used⟩⟩
  · exact ⟨hs, rfl, .inr ⟨fun h => absurd h.2.1 (not_le.2 hm), .refl _⟩⟩
  · obtain ⟨g, hgate⟩ := isSome_iff_exists.1 hg
    have hwf := hs.addRoute hgate (lt_length_of_gateAt hg) ha hp hn
    have hmem : s.fresh ∈ (s.addRoute i sat a).known := by
      rw [(known_addRoute hgate).mem_iff]
      exact mem_cons_self
    have hout : s.fresh ∉ (s.addRoute i sat a).inuse := fun h =>
      absurd (hs.fresh _ (hs.inuse_known h)) (lt_irrefl _)
    have hrange : ((s.addRoute i sat a).heap s.fresh).range = a.range := by
      rw [heap_addRoute_fresh]
      rfl
    have hused : (s.addRoute i sat a).used = s.used := used_addRoute hs
    obtain ⟨hall, he⟩ | ⟨⟨r, hr, hend, -⟩, he⟩ | ⟨j, hj, hjr, -, he⟩ := rtmpNew_cases hwf hmem
    · rw [he]
      rw [hused, hrange] at hall
      refine ⟨hwf.addinuse hmem hout, sats_addRoute s i sat a, .inl ⟨⟨hn, hm, hall⟩, ?_⟩⟩
      have := used_addinuse (s.addRoute i sat a) s.fresh
      rwa [hrange, hused] at this
    · rw [he]
      refine ⟨hwf, sats_addRoute s i sat a, .inr ⟨fun h => ?_, by rw [hused]⟩⟩
      have := h.2.2 r.range (by rw [← hused]; exact List.mem_map_of_mem hr)
      rw [← hrange, hend] at this
      exact absurd this (by simp)
    · rw [he]
      have hk := keeps_swap hwf hj hmem hout hjr
      refine ⟨hk.wf, hk.sats.trans (sats_addRoute s i sat a), .inr ⟨fun h => ?_, ?_⟩⟩
      · have hju : ((s.addRoute i sat a).heap j).range ∈ s.used := by
          rw [← hused]
          exact List.mem_map_of_mem (mem_usedRoutes.2 (.inr ⟨j, hj, rfl⟩))
        have := h.2.2 _ hju
        rw [hjr, hrange, endIn_self ha] at this
        exact absurd this (by simp)
      · have := hk.used
        rwa [hused] at this

end Tables

/-! ### Ranges apart from each other -/

/-- The nets of a range. -/
def nets (r : ℕ × ℕ) : Set ℕ := Set.Icc r.1 r.2

instance (a b : ℕ × ℕ) : Decidable (Disjoint (nets a) (nets b)) :=
  decidable_of_iff (¬max a.1 b.1 ≤ min a.2 b.2) (by
    rw [nets, nets, Set.disjoint_iff_inter_eq_empty, Set.Icc_inter_Icc, Set.Icc_eq_empty_iff])

/-- The net ranges of the routes in use are pairwise disjoint. -/
def Apart (s : Tables) : Prop := s.used.Pairwise fun a b => Disjoint (nets a) (nets b)

/-- The range `a` lies around the range `u`. -/
def Swallows (a u : ℕ × ℕ) : Prop := a.1 ≤ u.1 ∧ u.1 ≤ u.2 ∧ u.2 ≤ a.2

theorem disjoint_iff_of_endIn {a u : ℕ × ℕ} (ha : a.1 ≤ a.2) (h : endIn u a = false) :
    Disjoint (nets a) (nets u) ↔ ¬Swallows a u := by
  simp only [endIn, Bool.or_eq_false_iff, Bool.and_eq_false_iff, decide_eq_false_iff_not] at h
  rw [nets, nets, Set.disjoint_left]
  simp only [Set.mem_Icc, Swallows]
  constructor
  · intro hd hs
    exact hd (a := u.1) ⟨hs.1, hs.2.1.trans hs.2.2⟩ ⟨le_rfl, hs.2.1⟩
  · intro hs n hn hu
    omega

theorem Apart.of_perm (h : Apart s) (hp : s'.used.Perm s.used) : Apart s' :=
  (hp.pairwise_iff fun h => h.symm).2 h

theorem Apart.of_subperm (h : Apart s) (hp : s'.used.Subperm s.used) : Apart s' := by
  obtain ⟨l, hl, hsub⟩ := hp
  exact (hl.pairwise_iff fun h => h.symm).1 (h.sublist hsub)

/-- Two routes in use with one range are the same route. -/
theorem Apart.eq_of_range (h : Apart s) (hs : s.Wf) {k : ℕ} (hj : j ∈ s.inuse) (hk : k ∈ s.inuse)
    (hr : (s.heap j).range = (s.heap k).range) : j = k := by
  by_contra hne
  rw [Apart, used_eq, pairwise_append] at h
  have hd := (pairwise_map.1 h.2.1).forall hj hk hne
  rw [← hr, disjoint_self] at hd
  have hmem : (s.heap j).firstnet ∈ nets (s.heap j).range :=
    ⟨le_rfl, hs.ordered j (hs.inuse_known hj)⟩
  rw [hd] at hmem
  exact hmem

theorem rtmpReplace_isSome {k : ℕ} (hs : s.Wf) (h : Apart s) (hk : k ∈ s.inuse) :
    ∃ r, s.rtmpReplace k = some r := by
  obtain ⟨f, -, hr, -, ⟨-, he⟩ | ⟨hne, hu, -⟩ | ⟨-, -, he⟩⟩ := rtmpReplace_cases hs hk
  · exact ⟨_, he⟩
  · exact absurd (h.eq_of_range hs hu hk hr) hne
  · exact ⟨_, he⟩

/-! ### The tuples of a packet -/

section tuples
variable {s : Tables} {i k : ℕ} {sat : Addr}

theorem updateHops_isSome (hs : s.Wf) (h : Apart s) (hp : 0 < hops) :
    ∃ t, s.updateHops k hops = some t := by
  have replaced {h' : ℕ} (pos : 0 < h') (hk : k ∈ s.inuse) :
      ∃ t, ((s.setHops k h').rtmpReplace k).map Prod.snd = some t := by
    have hset : Keeps s (s.setHops k h') := keeps_setHops hs pos
    obtain ⟨r, hr⟩ := rtmpReplace_isSome hset.wf (h.of_perm hset.used) hk
    exact ⟨r.2, by rw [hr, map_some]⟩
  fun_cases updateHops s k hops with
  | case2 _ hk =>
    apply replaced _ hk
    split_ifs
    exacts [by decide, hp]
  | _ => exact ⟨_, rfl⟩

theorem rtmpTuple_isSome (hs : s.Wf) (h : Apart s) {a : Announced} (hp : 0 < a.hops) :
    ∃ r, s.rtmpTuple i sat a = some r := by
  unfold rtmpTuple
  split
  · rename_i k hk
    split
    · exact ⟨_, rfl⟩
    · have hset : Keeps s (s.setState k stateGood) := keeps_setState hs _
      obtain ⟨t, ht⟩ := updateHops_isSome hset.wf (h.of_perm hset.used) hp
      exact ⟨_, by rw [ht, map_some]⟩
  · split <;> exact ⟨_, rfl⟩

/-- The range does not end before it starts. -/
def Ordered (_ : Tables) (_ : ℕ) (_ : Addr) (a : Announced) : Prop := a.firstnet ≤ a.lastnet

/-- A range that goes in use lies around no range in use. -/
def NoSwallow (s : Tables) (i : ℕ) (sat : Addr) (a : Announced) : Prop :=
  GoesInUse s i sat a → ∀ u ∈ s.used, ¬Swallows a.range u

instance (s : Tables) (i : ℕ) (sat : Addr) (a : Announced) : Decidable (Ordered s i sat a) :=
  inferInstanceAs (Decidable (a.firstnet ≤ a.lastnet))

instance (s : Tables) (i : ℕ) (sat : Addr) (a : Announced) : Decidable (NoSwallow s i sat a) := by
  unfold NoSwallow GoesInUse Swallows
  infer_instance

theorem rtmpTuple_apart_iff (hs : s.Wf) (h : Apart s)
    (hg : (s.gateAt i sat).isSome) (ha : a.firstnet ≤ a.lastnet) (hp : 0 < a.hops)
    (hr : s.rtmpTuple i sat a = some r) :
    Apart r.2 ↔ NoSwallow s i sat a := by
  obtain ⟨-, -, ⟨hin, hu⟩ | ⟨hout, hu⟩⟩ := rtmpTuple_spec hs hg ha hp hr
  · rw [Apart, hu.pairwise_iff fun h => h.symm, pairwise_cons, and_iff_left (by exact h)]
    constructor
    · intro hd _ u hmem
      exact (disjoint_iff_of_endIn ha (hin.2.2 u hmem)).1 (hd u hmem)
    · intro hn u hmem
      exact (disjoint_iff_of_endIn ha (hin.2.2 u hmem)).2 (hn hin u hmem)
  · exact iff_of_true (h.of_perm hu) fun hin => absurd hin hout

theorem rtmpTuple_grows (hs : s.Wf) (hg : (s.gateAt i sat).isSome) (ha : a.firstnet ≤ a.lastnet)
    (hp : 0 < a.hops) (hr : s.rtmpTuple i sat a = some r) : s.used.Subperm r.2.used := by
  obtain ⟨-, -, ⟨-, hu⟩ | ⟨-, hu⟩⟩ := rtmpTuple_spec hs hg ha hp hr
  · exact (sublist_cons_self a.range s.used).subperm.trans hu.symm.subperm
  · exact hu.symm.subperm

/-- A condition on the tuples of a packet, at the first one and behind it. -/
theorem EachTuple.cons_iff (hr : s.rtmpTuple i sat a = some r) : EachTuple C i sat (a :: as) s ↔
      C s i sat a ∧ (r.1 = true → EachTuple C i sat as r.2) := by
  obtain ⟨b, t⟩ := r
  rw [EachTuple, hr]
  simp only [some.injEq, Prod.mk.injEq]
  refine and_congr_right fun _ => ⟨fun h hb => h t ⟨hb, rfl⟩, ?_⟩
  rintro h s' ⟨rfl, rfl⟩
  exact h rfl

theorem rtmpTuples_cons (hr : s.rtmpTuple i sat a = some r) :
    rtmpTuples i sat (a :: as) s = if r.1 then rtmpTuples i sat as r.2 else some r.2 := by
  rw [rtmpTuples, hr, bind_some]

/-- Within a packet no range goes out of use. -/
theorem rtmpTuples_grows (hs : s.Wf) (hg : (s.gateAt i sat).isSome)
    (hp : ∀ a ∈ as, 0 < a.hops) (ho : EachTuple Ordered i sat as s)
    (h : rtmpTuples i sat as s = some s') : s'.Wf ∧ s.used.Subperm s'.used := by
  induction as generalizing s with
  | nil =>
    cases h
    exact ⟨hs, .refl _⟩
  | cons a as ih =>
    rw [forall_mem_cons] at hp
    obtain ⟨r, hr, -⟩ := bind_eq_some_iff.1 h
    rw [rtmpTuples_cons hr] at h
    obtain ⟨ha, ho⟩ := (EachTuple.cons_iff hr).1 ho
    obtain ⟨hwf, hsats, -⟩ := rtmpTuple_spec hs hg ha hp.1 hr
    have hgrow := rtmpTuple_grows hs hg ha hp.1 hr
    by_cases hb : r.1 = true
    · rw [if_pos hb] at h
      have hg' : (r.2.gateAt i sat).isSome := by
        rwa [gateAt_isSome, hsats, ← gateAt_isSome]
      obtain ⟨hwf', hgrow'⟩ := ih hwf hg' hp.2 (ho hb) h
      exact ⟨hwf', hgrow.trans hgrow'⟩
    · rw [if_neg hb] at h
      cases h
      exact ⟨hwf, hgrow⟩

/-- A packet leaves the ranges apart exactly when none of its tuples swallows a range. -/
theorem rtmpTuples_apart_iff (hs : s.Wf) (h : Apart s) (hg : (s.gateAt i sat).isSome)
    (hp : ∀ a ∈ as, 0 < a.hops) (ho : EachTuple Ordered i sat as s) :
    (∃ s', rtmpTuples i sat as s = some s' ∧ Apart s') ↔ EachTuple NoSwallow i sat as s := by
  induction as generalizing s with
  | nil => exact iff_of_true ⟨s, rfl, h⟩ trivial
  | cons a as ih =>
    rw [forall_mem_cons] at hp
    obtain ⟨r, hr⟩ := @rtmpTuple_isSome s i sat hs h a hp.1
    obtain ⟨ha, ho⟩ := (EachTuple.cons_iff hr).1 ho
    obtain ⟨hwf, hsats, -⟩ := rtmpTuple_spec hs hg ha hp.1 hr
    have hg' : (r.2.gateAt i sat).isSome := by
      rwa [gateAt_isSome, hsats, ← gateAt_isSome]
    rw [rtmpTuples_cons hr, EachTuple.cons_iff hr, ← rtmpTuple_apart_iff hs h hg ha hp.1 hr]
    by_cases hb : r.1 = true
    · simp only [hb, forall_const]
      constructor
      · rintro ⟨s', hs', hap⟩
        have hap' := hap.of_subperm (rtmpTuples_grows hwf hg' hp.2 (ho hb) hs').2
        exact ⟨hap', (ih hwf hap' hg' hp.2 (ho hb)).1 ⟨s', hs', hap⟩⟩
      · rintro ⟨hap', heach⟩
        exact (ih hwf hap' hg' hp.2 (ho hb)).2 heach
    · simp [hb]

end tuples

/-! ### The tick -/

/-- An invariant of the tick, by the changes the tick makes: ages, gateways that go, routes that
are freed, and routes in use that are poisoned and replaced. -/
structure Ages (P : Tables → Prop) : Prop where
  setState : ∀ {s} (k t : ℕ), P s → P (s.setState k t)
  onGate : ∀ {s} (i : ℕ) (sat : Addr) (f : Gate → List Gate),
    (∀ g, ((f g).flatMap Gate.rt).Perm g.rt) → P s → P (s.onGate i sat f)
  free : ∀ {s} (k : ℕ), (k ∉ s.inuse ∨ (s.heap k).hops = hopsPoison) → P s → P (s.free k)
  poison : ∀ {s} (k : ℕ), k ∈ s.inuse → P s →
    ∃ r, (s.setHops k hopsPoison).rtmpReplace k = some r ∧ P r.2

theorem foldlM_keeps {σ : Type} {P : σ → Prop} {f : σ → α → Option σ}
    (hf : ∀ s a, P s → ∃ s', f s a = some s' ∧ P s') (l : List α) {s : σ} (hs : P s) :
    ∃ s', l.foldlM f s = some s' ∧ P s' := by
  induction l generalizing s with
  | nil => exact ⟨s, rfl, hs⟩
  | cons a l ih =>
    obtain ⟨t, ht, hP⟩ := hf s a hs
    obtain ⟨s', hs', hP'⟩ := ih hP
    exact ⟨s', by rw [foldlM_cons, ht]; exact hs', hP'⟩

section tick
variable {P : Tables → Prop} {s : Tables}

theorem Ages.downRoute (hP : Ages P) (i : ℕ) (sat : Addr) (s : Tables) (k : ℕ) (hs : P s) :
    ∃ s', downRoute i sat s k = some s' ∧ P s' := by
  unfold Tables.downRoute
  split_ifs with h
  · exact ⟨_, rfl, hP.free k h.symm hs⟩
  · rw [not_or, not_not] at h
    obtain ⟨r, hr, hPr⟩ := hP.poison k h.2 hs
    refine ⟨_, by rw [hr, map_some], ?_⟩
    split
    · exact hP.onGate i sat _ (fun g => by simp) (hP.setState k _ hPr)
    · exact hPr

theorem Ages.ageRoute (hP : Ages P) (s : Tables) (k : ℕ) (hs : P s) :
    ∃ s', s.ageRoute k = some s' ∧ P s' := by
  obtain ⟨t, he⟩ : ∃ t, (s.setRoute k fun r => if r.state = statePerm then r
      else { r with state := r.state + 1 }) = s.setState k t := by
    by_cases h : (s.heap k).state = statePerm
    · refine ⟨(s.heap k).state, ?_⟩
      simp only [Tables.setState, Tables.setRoute, h, if_true]
      rw [← h]
    · exact ⟨(s.heap k).state + 1, by simp only [Tables.setState, Tables.setRoute, h, if_false]⟩
  have hs' := hP.setState k t hs
  unfold Tables.ageRoute
  simp only [he]
  split_ifs with _ hk hh
  · exact ⟨_, rfl, hP.free k (.inr hh) hs'⟩
  · obtain ⟨r, hr, hPr⟩ := hP.poison k hk hs'
    refine ⟨_, by rw [hr, map_some], ?_⟩
    split_ifs
    · exact hP.setState k _ hPr
    · exact hPr
  · exact ⟨_, rfl, hP.free k (.inl hk) hs'⟩
  · exact ⟨_, rfl, hs'⟩

theorem Ages.timerGate (hP : Ages P) (i : ℕ) (s : Tables) (sat : Addr) (hs : P s) :
    ∃ s', timerGate i s sat = some s' ∧ P s' := by
  unfold Tables.timerGate
  split
  · exact ⟨s, rfl, hs⟩
  · rename_i g hg
    have hs' := hP.onGate i sat (fun g => [{ g with state := g.state + 1 }])
      (fun g => by simp) hs
    simp only
    split
    · obtain ⟨t, ht, hPt⟩ := foldlM_keeps (hP.downRoute i sat) g.rt hs'
      refine ⟨_, by rw [ht, map_some], hP.onGate i sat _ (fun g => ?_) hPt⟩
      split
      · rename_i he
        simp [he]
      · simp
    · exact foldlM_keeps hP.ageRoute g.rt hs'

theorem Ages.asTimer (hP : Ages P) (hs : P s) : ∃ s', s.asTimer = some s' ∧ P s' :=
  foldlM_keeps (fun _ _ h => foldlM_keeps (hP.timerGate _) _ h) _ hs

end tick

theorem ages_apart : Ages fun s => s.Wf ∧ Apart s where
  setState k t h := by
    have hk := @keeps_setState _ k h.1 t
    exact ⟨hk.wf, h.2.of_perm hk.used⟩
  onGate i sat f hf h := ⟨h.1.onGate hf, h.2.of_perm (by rw [used_onGate])⟩
  free k _ h := ⟨h.1.free, h.2.of_subperm (used_free _ k).subperm⟩
  poison {s} k hk h := by
    have hset : Keeps s (s.setHops k hopsPoison) := keeps_setHops h.1 (by decide)
    obtain ⟨r, hr⟩ := rtmpReplace_isSome hset.wf (h.2.of_perm hset.used) hk
    have := hset.trans (keeps_rtmpReplace hset.wf hk hr)
    exact ⟨r, hr, this.wf, h.2.of_perm this.used⟩

/-! ### Whole runs -/

theorem hops_pos_of_readTuples (x : Tuple) (ts : List Tuple) :
    ∀ a ∈ readTuples x ts, 0 < a.hops := by
  fun_induction readTuples x ts with
  | case1 | case2 => simp
  | case3 _ _ _ _ _ ih | case4 _ _ _ _ ih => simpa [Tuple.announce, Tuple.hops_pos] using ih

theorem hops_pos_of_readPacket {n : Interface} {ts : List Tuple}
    (h : readPacket n ts = some as) : ∀ a ∈ as, 0 < a.hops := by
  have behind (t x : Tuple) (rest : List Tuple)
      (h : some (t.announce x :: readTuples x rest) = some as) : ∀ a ∈ as, 0 < a.hops := by
    cases h
    exact forall_mem_cons.2 ⟨t.hops_pos, hops_pos_of_readTuples x rest⟩
  revert h
  fun_cases readPacket n ts with
  | case4 | case8 => exact behind _ _ _
  | _ => simp

theorem hops_pos_of_announced (h : s.announced p = some as) : ∀ a ∈ as, 0 < a.hops := by
  obtain ⟨n, -, hn⟩ := bind_eq_some_iff.1 h
  unfold Packet.read at hn
  split_ifs at hn
  exact hops_pos_of_readPacket hn

theorem gateUp_isSome_of_announced (h : s.announced p = some as) :
    ((s.gateUp p.iface p.sender).gateAt p.iface p.sender).isSome := by
  obtain ⟨n, hn, -⟩ := bind_eq_some_iff.1 h
  exact gateUp_isSome (List.getElem?_eq_some_iff.1 hn).1

/-- One packet or tick leaves the ranges apart exactly when no tuple swallows a range. -/
theorem step_apart_iff (hs : s.Wf) (h : Apart s) (ho : EachIn Ordered s e) :
    (∃ s', step s e = some s' ∧ Apart s') ↔ EachIn NoSwallow s e := by
  cases e with
  | tick =>
    obtain ⟨s', hs', -, hap⟩ := ages_apart.asTimer ⟨hs, h⟩
    exact iff_of_true ⟨s', hs', hap⟩ trivial
  | data p =>
    simp only [step, rtmpPacket, EachIn] at ho ⊢
    cases ha : s.announced p with
    | none => simpa using h
    | some =>
      simp only [ha, mem_def, some.injEq, forall_eq'] at ho ⊢
      exact rtmpTuples_apart_iff hs.gateUp (h.of_perm (by rw [used_gateUp]))
        (gateUp_isSome_of_announced ha) (hops_pos_of_announced ha) ho

theorem step_wf (hs : s.Wf) (h : Apart s) (ho : EachIn Ordered s e) (he : step s e = some s') :
    s'.Wf := by
  cases e with
  | tick =>
    obtain ⟨t, ht, hwf, -⟩ := ages_apart.asTimer ⟨hs, h⟩
    obtain rfl : t = s' := some.inj (ht.symm.trans he)
    exact hwf
  | data p =>
    simp only [step, rtmpPacket, EachIn] at ho he
    cases ha : s.announced p with
    | none =>
      rw [ha] at he
      cases he
      exact hs
    | some =>
      simp only [ha, mem_def, some.injEq, forall_eq'] at ho he
      exact (rtmpTuples_grows hs.gateUp (gateUp_isSome_of_announced ha)
        (hops_pos_of_announced ha) ho he).1

theorem run_cons (es : List Event) (h : step s e = some t) : run s (e :: es) = run t es := by
  rw [run, foldlM_cons, h]
  rfl

/-- A property of every table a run goes through. -/
def Always (P : Tables → Prop) (s : Tables) (es : List Event) : Prop :=
  ∀ es', es' <+: es → ∃ s', run s es' = some s' ∧ P s'

theorem always_nil {P : Tables → Prop} : Always P s [] ↔ P s := by
  constructor
  · intro h
    obtain ⟨s', hs', hP⟩ := h [] (by simp)
    cases hs'
    exact hP
  · intro hP es' hes'
    obtain rfl := prefix_nil.1 hes'
    exact ⟨s, rfl, hP⟩

theorem always_cons {P : Tables → Prop} :
    Always P s (e :: es) ↔ P s ∧ ∃ t, step s e = some t ∧ Always P t es := by
  constructor
  · intro h
    obtain ⟨s₀, hs₀, hP⟩ := h [] (by simp)
    cases hs₀
    obtain ⟨t, ht, -⟩ := h [e] (by simp)
    have hstep : step s e = some t := by simpa [run] using ht
    refine ⟨hP, t, hstep, fun es' hes' => ?_⟩
    obtain ⟨u, hu, hPu⟩ := h (e :: es') (prefix_cons_inj e |>.2 hes')
    exact ⟨u, by rwa [run_cons es' hstep] at hu, hPu⟩
  · rintro ⟨hP, t, hstep, h⟩ es' hes'
    cases es' with
    | nil => exact ⟨s, rfl, hP⟩
    | cons e' es' =>
      obtain ⟨rfl, hrest⟩ := cons_prefix_cons.1 hes'
      rw [run_cons es' hstep]
      exact h es' hrest

theorem always_apart_iff (hs : s.Wf) (h : Apart s) (ho : Along Ordered s es) :
    Always Apart s es ↔ Along NoSwallow s es := by
  induction es generalizing s with
  | nil => exact iff_of_true (always_nil.2 h) trivial
  | cons e es ih =>
    rw [always_cons, and_iff_right h, Along, ← step_apart_iff hs h ho.1]
    constructor
    · rintro ⟨t, ht, halways⟩
      have hap : Apart t := by
        obtain ⟨t', ht', hap⟩ := halways [] (by simp)
        cases ht'
        exact hap
      refine ⟨⟨t, ht, hap⟩, fun s' hs' => ?_⟩
      obtain rfl : t = s' := some.inj (ht.symm.trans hs')
      exact (ih (step_wf hs h ho.1 ht) hap (ho.2 t ht)).1 halways
    · rintro ⟨⟨t, ht, hap⟩, hrest⟩
      exact ⟨t, ht, (ih (step_wf hs h ho.1 ht) hap (ho.2 t ht)).2 (hrest t ht)⟩

section
variable (hosts : List (Addr × ℕ × ℕ))
include hosts

theorem gates_start : (start hosts).gates = [] := by
  simp only [start, gates, flatMap_map]
  simp

theorem known_start : (start hosts).known = [] := by
  simp [known, gates_start]

theorem Wf_start : (start hosts).Wf := by
  have hg := gates_start hosts
  have hk := known_start hosts
  refine ⟨by simp [hk], by simp [hk], ?_, ?_, by simp [hk], by simp [hk], by simp [hk],
    by simp [hg]⟩
  · exact nodup_nil
  · exact nil_subset _

theorem used_start : (start hosts).used = hosts.map Prod.snd := by
  simp [used_eq, start, Interface.rt, Route.range]

end

/-- Over every sequence of data packets and ticks whose ranges are not upside down, the ranges
in use are pairwise disjoint after each step exactly when no range that goes in use lies around
a range in use. -/
theorem used_apart_iff (hosts : List (Addr × ℕ × ℕ)) (es : List Event)
    (hd : (hosts.map Prod.snd).Pairwise fun a b => Disjoint (nets a) (nets b))
    (ho : Along Ordered (start hosts) es) :
    (∀ es', es' <+: es → ∃ s, run (start hosts) es' = some s ∧ Apart s) ↔
      Along NoSwallow (start hosts) es :=
  always_apart_iff (Wf_start hosts) (by rwa [Apart, used_start]) ho

/-- Gateways 9 and 8 both announce net 5, gateway 8 also nets 7 to 8.  Then gateway 9 falls silent
while gateway 8 goes on. -/
def handover : List Event :=
  [.data ⟨0, ⟨1, 9⟩, 8, ⟨1, 9⟩, [⟨1, 0x80⟩, ⟨1, 0x82⟩, ⟨5, 0⟩]⟩,
    .data ⟨0, ⟨1, 8⟩, 8, ⟨1, 8⟩, [⟨1, 0x80⟩, ⟨1, 0x82⟩, ⟨5, 4⟩, ⟨7, 0x81⟩, ⟨8, 0x82⟩]⟩,
    .tick, .tick,
    .data ⟨0, ⟨1, 8⟩, 8, ⟨1, 8⟩, [⟨1, 0x80⟩, ⟨1, 0x82⟩, ⟨5, 4⟩, ⟨7, 0x81⟩, ⟨8, 0x82⟩]⟩,
    .tick]

/-- Gateway 9 announces net 5 and then the range 3 to 10 around it. -/
def around : List Event :=
  [.data ⟨0, ⟨1, 9⟩, 8, ⟨1, 9⟩, [⟨1, 0x80⟩, ⟨1, 0x82⟩, ⟨5, 0⟩, ⟨3, 0x80⟩, ⟨10, 0x80⟩]⟩]

theorem used_apart_handover :
    (∀ es', es' <+: handover → ∃ s, run (start [(⟨1, 1⟩, 1, 1)]) es' = some s ∧ Apart s) ∧
      ¬∀ es', es' <+: around → ∃ s, run (start [(⟨1, 1⟩, 1, 1)]) es' = some s ∧ Apart s :=
  ⟨(used_apart_iff [(⟨1, 1⟩, 1, 1)] handover (by simp) (by decide)).2 (by decide),
    mt (used_apart_iff [(⟨1, 1⟩, 1, 1)] around (by simp) (by decide)).1 (by decide)⟩

/-- The gateway announces net 5 and then the range 3 to 10 around it: both go in use. -/
theorem used_swallowed : ∃ s, run (start [(⟨1, 1⟩, 1, 1)])
        [.data ⟨0, ⟨1, 9⟩, 8, ⟨1, 9⟩,
          [⟨1, 0x80⟩, ⟨1, 0x82⟩, ⟨5, 0⟩, ⟨3, 0x80⟩, ⟨10, 0x80⟩]⟩] = some s ∧
      s.used = [(1, 1), (3, 10), (5, 5)] ∧ ¬Apart s := by
  have hrun : (run (start [(⟨1, 1⟩, 1, 1)])
      [.data ⟨0, ⟨1, 9⟩, 8, ⟨1, 9⟩,
        [⟨1, 0x80⟩, ⟨1, 0x82⟩, ⟨5, 0⟩, ⟨3, 0x80⟩, ⟨10, 0x80⟩]⟩]).map Tables.used =
      some [(1, 1), (3, 10), (5, 5)] := by decide
  obtain ⟨s, hs, hu⟩ := map_eq_some_iff.1 hrun
  refine ⟨s, hs, hu, fun h => ?_⟩
  rw [Apart, hu] at h
  simp only [pairwise_cons, mem_cons] at h
  have hd := h.2.1 (5, 5) (.inl rfl)
  have h5 : 5 ∈ nets (3, 10) := ⟨by decide, by decide⟩
  exact Set.disjoint_left.1 hd h5 ⟨le_rfl, le_rfl⟩

end Netatalk.Rtmp
