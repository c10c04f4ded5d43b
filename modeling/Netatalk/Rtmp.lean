import Mathlib

/-! # The routing tables of atalkd

atalkd learns routes from the RTMP data packets of its gateways.  Every interface has a net
range of its own, a list of gateways heard on it, and every gateway a list of the routes it
announced.  Of these routes some are *in use*: the ones the kernel forwards by.

`rtmpPacket` takes one data packet through the tuples it carries, `asTimer` is the tick that
ages gateways and routes.  Both work on the same four steps: `rtmpNew` decides whether a new
route goes in use, `rtmpReplace` looks for a better route when one in use got worse, and
`addinuse`, `delinuse` and `free` move a route into use, out of use and out of the tables.

* A route is a key into `heap`, as the source's routes are pointers that stand in two lists
  at once.  `inuse` holds the keys in use, the latest first; the in-use list of one interface
  is the part of it with that interface.
* Every interface routes and is configured, and its range is fixed; zones are left out.
* The interface a packet is taken for is part of the event.  The source picks it by the
  sender's net.
* `none` is atalkd stopping: `rtmp_replace` found nothing, or it put a route in use that was
  in use already, which ties the in-use list into a knot. -/

namespace Netatalk.Rtmp

/-- The most hops a route may have (`RTMPHOPS_MAX`). -/
def hopsMax : ℕ := 15

/-- The hop count of a route that is down but still told to others (`RTMPHOPS_POISON`). -/
def hopsPoison : ℕ := 31

/-- The ages of gateways and routes (`RTMPTAB_PERM`, `RTMPTAB_GOOD`, `RTMPTAB_BAD`). -/
def statePerm : ℕ := 0

@[inherit_doc statePerm] def stateGood : ℕ := 1

@[inherit_doc statePerm] def stateBad : ℕ := 4

/-- The net and node of a DDP address. -/
structure Addr where
  net : ℕ
  node : ℕ
deriving DecidableEq, Repr

/-- An RTMP tuple as it stands in the packet. -/
structure Tuple where
  net : ℕ
  dist : UInt8
deriving DecidableEq, Repr

def Tuple.extended (t : Tuple) : Bool := t.dist &&& 0x80 != 0

def Tuple.hops (t : Tuple) : ℕ := (t.dist &&& 0x7f).toNat + 1

theorem Tuple.hops_pos (t : Tuple) : 0 < t.hops := Nat.succ_pos _

/-- A tuple with its range end: what a gateway says about one net range. -/
structure Announced where
  firstnet : ℕ
  lastnet : ℕ
  hops : ℕ
  extended : Bool
deriving DecidableEq, Repr

/-- The tuple `t`, with `x` the last range end that was read. -/
def Tuple.announce (t x : Tuple) : Announced :=
  ⟨t.net, if t.extended then x.net else t.net, t.hops, t.extended⟩

/-- A route (`struct rtmptab`); `iface` is the interface its gateway was heard on. -/
structure Route where
  firstnet : ℕ
  lastnet : ℕ
  hops : ℕ
  state : ℕ
  extended : Bool
  iface : ℕ
deriving DecidableEq, Repr, Inhabited

def Route.range (r : Route) : ℕ × ℕ := (r.firstnet, r.lastnet)

def Announced.range (a : Announced) : ℕ × ℕ := (a.firstnet, a.lastnet)

/-- Either end of the range `a` is a net of the range `r`. -/
def endIn (r a : ℕ × ℕ) : Bool :=
  (r.1 ≤ a.1 && a.1 ≤ r.2) || (r.1 ≤ a.2 && a.2 ≤ r.2)

/-- A gateway (`struct gate`) with the keys of its routes. -/
structure Gate where
  sat : Addr
  state : ℕ
  rt : List ℕ
deriving DecidableEq, Repr

structure Interface where
  addr : Addr
  firstnet : ℕ
  lastnet : ℕ
  gates : List Gate
deriving DecidableEq, Repr

/-- The route of the interface itself, `i_rt`.  It heads the interface's in-use list. -/
def Interface.rt (n : Interface) : Route :=
  ⟨n.firstnet, n.lastnet, 0, statePerm, true, 0⟩

structure Tables where
  heap : ℕ → Route
  fresh : ℕ
  interfaces : List Interface
  inuse : List ℕ

namespace Tables

/-- Every gateway, in the order of the interfaces. -/
def gates (s : Tables) : List Gate := s.interfaces.flatMap Interface.gates

/-- The routes known from any gateway. -/
def known (s : Tables) : List ℕ := s.gates.flatMap Gate.rt

/-- The routes in use, those of the interfaces included. -/
def usedRoutes (s : Tables) : List Route :=
  s.interfaces.map Interface.rt ++ s.inuse.map s.heap

/-- The net ranges of the routes in use. -/
def used (s : Tables) : List (ℕ × ℕ) := s.usedRoutes.map Route.range

def setRoute (s : Tables) (k : ℕ) (f : Route → Route) : Tables :=
  { s with heap := Function.update s.heap k (f (s.heap k)) }

def setHops (s : Tables) (k hops : ℕ) : Tables := s.setRoute k fun r => { r with hops := hops }

def setState (s : Tables) (k state : ℕ) : Tables :=
  s.setRoute k fun r => { r with state := state }

/-- The gateway with address `sat` on the interface `i`. -/
def gateAt (s : Tables) (i : ℕ) (sat : Addr) : Option Gate :=
  s.interfaces[i]?.bind fun n => n.gates.find? fun g => g.sat = sat

end Tables

/-- Change the first gateway with address `sat` to the gateways `f` gives for it. -/
def onFirst (sat : Addr) (f : Gate → List Gate) : List Gate → List Gate
  | [] => []
  | g :: gs => if g.sat = sat then f g ++ gs else g :: onFirst sat f gs

namespace Tables

def onGate (s : Tables) (i : ℕ) (sat : Addr) (f : Gate → List Gate) : Tables :=
  { s with
    interfaces := s.interfaces.modify i fun n => { n with gates := onFirst sat f n.gates } }

/-- `rtmp_addinuse`: at the head of the in-use list. -/
def addinuse (s : Tables) (k : ℕ) : Tables := { s with inuse := k :: s.inuse }

/-- `rtmp_delinuse`.  A route without a gateway, that is an interface's own, only logs. -/
def delinuse (s : Tables) : Option ℕ → Tables
  | none => s
  | some k => { s with inuse := s.inuse.erase k }

/-- `rtmp_free`: out of use and off its gateway. -/
def free (s : Tables) (k : ℕ) : Tables :=
  { s with
    inuse := s.inuse.erase k
    interfaces := s.interfaces.map fun n =>
      { n with gates := n.gates.map fun g => { g with rt := g.rt.filter (· ≠ k) } } }

/-- The routes in use in the order `rtmp_new` walks them: interface by interface, its own
route first.  The key is `none` for an interface's own route. -/
def walk (s : Tables) : List (Option ℕ × Route) :=
  s.interfaces.zipIdx.flatMap fun n =>
    (none, n.1.rt) ::
      (s.inuse.filter fun k => (s.heap k).iface = n.2).map fun k => (some k, s.heap k)

/-- Whether a new route goes in use (`rtmp_new`). -/
def rtmpNew (s : Tables) (k : ℕ) : Tables :=
  match s.walk.find? fun e => endIn e.2.range (s.heap k).range with
  | none => s.addinuse k
  | some (r, e) =>
    if e.range ≠ (s.heap k).range then s
    else if e.hops < (s.heap k).hops then s
    else (s.delinuse r).addinuse k

/-- The better of two candidates; the earlier one on a tie. -/
def better (heap : ℕ → Route) (found : Option ℕ) (r : ℕ) : Option ℕ :=
  match found with
  | none => some r
  | some f => if (heap r).hops < (heap f).hops then some r else some f

/-- The first route of each gateway for exactly this range. -/
def candidates (s : Tables) (range : ℕ × ℕ) : List ℕ :=
  s.gates.filterMap fun g => g.rt.find? fun r => (s.heap r).range = range

/-- Look for the best route with the range of `k` and put it in use (`rtmp_replace`).  The flag
says that `k` stays. -/
def rtmpReplace (s : Tables) (k : ℕ) : Option (Bool × Tables) :=
  match (s.candidates (s.heap k).range).foldl (better s.heap) none with
  | none => none
  | some found =>
    if found = k then some (true, s)
    else if found ∈ s.inuse then none
    else
      let s' := (s.delinuse (some k)).addinuse found
      some (false, if (s.heap k).state = stateBad then s'.free k else s')

/-- A tuple for a route the gateway announced before: the hop count. -/
def updateHops (s : Tables) (k hops : ℕ) : Option Tables :=
  if (s.heap k).hops ≠ hops ∧ ((s.heap k).hops ≠ hopsPoison ∨ hops ≤ hopsMax) then
    if k ∈ s.inuse then
      if hops < (s.heap k).hops then some (s.setHops k hops)
      else
        ((s.setHops k (if hopsMax < hops then hopsPoison else hops)).rtmpReplace k).map Prod.snd
    else
      -- the source compares after the assignment, so `rtmp_new` is never called here
      let s' := s.setHops k hops
      if hops < (s'.heap k).hops then some (s'.rtmpNew k) else some s'
  else some s

/-- The next route of the gateway becomes the head of its list. -/
def turn (k : ℕ) (g : Gate) : Gate := { g with rt := g.rt.rotate (g.rt.idxOf k + 1) }

/-- A route that is new for the gateway, at the end of its list. -/
def addRoute (s : Tables) (i : ℕ) (sat : Addr) (a : Announced) : Tables :=
  { s with
    heap := Function.update s.heap s.fresh
      ⟨a.firstnet, a.lastnet, a.hops, stateGood, a.extended, i⟩
    fresh := s.fresh + 1 }.onGate i sat fun g => [{ g with rt := g.rt ++ [s.fresh] }]

/-- The route of the gateway that a tuple is about. -/
def routeFor (s : Tables) (i : ℕ) (sat : Addr) (a : Announced) : Option ℕ :=
  (s.gateAt i sat).bind fun g => g.rt.find? fun k => endIn (s.heap k).range a.range

/-- One tuple of a data packet.  The flag says that the packet is read on. -/
def rtmpTuple (s : Tables) (i : ℕ) (sat : Addr) (a : Announced) : Option (Bool × Tables) :=
  match s.routeFor i sat a with
  | some k =>
    if (s.heap k).range ≠ a.range ∨ (s.heap k).extended ≠ a.extended then some (false, s)
    else
      ((s.setState k stateGood).updateHops k a.hops).map fun s' =>
        (true, s'.onGate i sat fun g => [turn k g])
  | none =>
    if hopsMax < a.hops then some (true, s)
    else some (true, (s.addRoute i sat a).rtmpNew s.fresh)

def rtmpTuples (i : ℕ) (sat : Addr) : List Announced → Tables → Option Tables
  | [], s => some s
  | a :: as, s =>
    (s.rtmpTuple i sat a).bind fun r => if r.1 then rtmpTuples i sat as r.2 else some r.2

/-- The gateway that sent the packet, new or known, is up. -/
def gateUp (s : Tables) (i : ℕ) (sat : Addr) : Tables :=
  if (s.gateAt i sat).isSome then s.onGate i sat fun g => [{ g with state := stateGood }]
  else
    { s with
      interfaces := s.interfaces.modify i fun n =>
        { n with gates := ⟨sat, stateGood, []⟩ :: n.gates } }

end Tables

/-- The tuples behind the first one; a tuple without its range end ends the packet. -/
def readTuples : Tuple → List Tuple → List Announced
  | _, [] => []
  | x, t :: rest =>
    if t.extended then
      match rest with
      | [] => []
      | x' :: rest' => t.announce x' :: readTuples x' rest'
    else t.announce x :: readTuples x rest

/-- What a data packet announces, or `none` if its first tuple is refused.  Phase 1 packets
start with a version tuple, phase 2 packets with the range of the interface. -/
def readPacket (n : Interface) : List Tuple → Option (List Announced)
  | [] => none
  | t :: rest =>
    if t.net = 0 then
      if t.dist ≠ 0x82 then none
      else
        match rest with
        | [] => none
        | t' :: rest' => some (t'.announce ⟨0, 0⟩ :: readTuples ⟨0, 0⟩ rest')
    else if t.extended then
      match rest with
      | [] => none
      | x :: rest' =>
        if x.dist ≠ 0x82 then none
        else if t.net ≠ n.firstnet ∨ x.net ≠ n.lastnet then none
        else some (t.announce x :: readTuples x rest')
    else none

/-- An RTMP data packet: the interface it is taken for, the sender, and what it carries. -/
structure Packet where
  iface : ℕ
  sender : Addr
  nodelen : ℕ
  rh : Addr
  tuples : List Tuple
deriving DecidableEq, Repr

/-- The announcements of a packet that passes the checks on its header. -/
def Packet.read (p : Packet) (n : Interface) : Option (List Announced) :=
  if p.sender = n.addr then none
  else if p.nodelen ≠ 8 then none
  else if (p.sender.net ≠ 0 ∧ p.sender.net ≠ p.rh.net) ∨ p.sender.node ≠ p.rh.node then none
  else readPacket n p.tuples

namespace Tables

/-- What the packet announces to this host. -/
def announced (s : Tables) (p : Packet) : Option (List Announced) :=
  s.interfaces[p.iface]?.bind p.read

def rtmpPacket (s : Tables) (p : Packet) : Option Tables :=
  match s.announced p with
  | none => some s
  | some as => rtmpTuples p.iface p.sender as (s.gateUp p.iface p.sender)

/-- A route of a gateway that is down. -/
def downRoute (i : ℕ) (sat : Addr) (s : Tables) (k : ℕ) : Option Tables :=
  if (s.heap k).hops = hopsPoison ∨ k ∉ s.inuse then some (s.free k)
  else
    ((s.setHops k hopsPoison).rtmpReplace k).map fun r =>
      if r.1 then
        (r.2.setState k stateGood).onGate i sat fun g => [{ g with state := stateGood }]
      else r.2

/-- A route of a gateway that is up: it ages, and goes when it was not heard of for long. -/
def ageRoute (s : Tables) (k : ℕ) : Option Tables :=
  let s' := s.setRoute k fun r =>
    if r.state = statePerm then r else { r with state := r.state + 1 }
  if stateBad ≤ (s'.heap k).state then
    if k ∉ s'.inuse then some (s'.free k)
    else if (s'.heap k).hops = hopsPoison then some (s'.free k)
    else
      ((s'.setHops k hopsPoison).rtmpReplace k).map fun r =>
        if r.1 then r.2.setState k stateGood else r.2
  else some s'

/-- The tick for one gateway. -/
def timerGate (i : ℕ) (s : Tables) (sat : Addr) : Option Tables :=
  match s.gateAt i sat with
  | none => some s
  | some g =>
    let s' := s.onGate i sat fun g => [{ g with state := g.state + 1 }]
    if stateBad ≤ g.state + 1 then
      (g.rt.foldlM (downRoute i sat) s').map fun s'' =>
        s''.onGate i sat fun g => if g.rt = [] then [] else [g]
    else g.rt.foldlM ageRoute s'

def timerInterface (s : Tables) (i : ℕ) : Option Tables :=
  ((s.interfaces[i]?.map fun n => n.gates.map Gate.sat).getD []).foldlM (timerGate i) s

def asTimer (s : Tables) : Option Tables :=
  (List.range s.interfaces.length).foldlM timerInterface s

end Tables

inductive Event where
  | data (p : Packet)
  | tick
deriving DecidableEq, Repr

def step (s : Tables) : Event → Option Tables
  | .data p => s.rtmpPacket p
  | .tick => s.asTimer

def run (s : Tables) (es : List Event) : Option Tables := es.foldlM step s

/-- A host that has heard of no gateway yet; an interface is its address and net range. -/
def start (hosts : List (Addr × ℕ × ℕ)) : Tables :=
  ⟨fun _ => default, 0, hosts.map fun h => ⟨h.1, h.2.1, h.2.2, []⟩, []⟩

/-! ### Conditions along a run

`EachTuple C` says that the condition `C` on the tables and an announcement holds at every
tuple that is processed, `Along C` that it does so in every packet of a run. -/

def EachTuple (C : Tables → ℕ → Addr → Announced → Prop) (i : ℕ) (sat : Addr) :
    List Announced → Tables → Prop
  | [], _ => True
  | a :: as, s =>
    C s i sat a ∧ ∀ s', s.rtmpTuple i sat a = some (true, s') → EachTuple C i sat as s'

def EachIn (C : Tables → ℕ → Addr → Announced → Prop) (s : Tables) : Event → Prop
  | .data p => ∀ as ∈ s.announced p,
      EachTuple C p.iface p.sender as (s.gateUp p.iface p.sender)
  | .tick => True

def Along (C : Tables → ℕ → Addr → Announced → Prop) : Tables → List Event → Prop
  | _, [] => True
  | s, e :: es => EachIn C s e ∧ ∀ s', step s e = some s' → Along C s' es

section
variable (C : Tables → ℕ → Addr → Announced → Prop) [∀ s i sat a, Decidable (C s i sat a)]

instance (i : ℕ) (sat : Addr) : (as : List Announced) → (s : Tables) →
    Decidable (EachTuple C i sat as s)
  | [], _ => .isTrue trivial
  | a :: as, s =>
    match h : s.rtmpTuple i sat a with
    | some (true, s') =>
      have := instDecidableEachTuple i sat as s'
      decidable_of_iff (C s i sat a ∧ EachTuple C i sat as s') (by simp [EachTuple, h])
    | some (false, _) | none => decidable_of_iff (C s i sat a) (by simp [EachTuple, h])

instance (s : Tables) : (e : Event) → Decidable (EachIn C s e)
  | .data p => inferInstanceAs (Decidable (∀ as ∈ s.announced p,
      EachTuple C p.iface p.sender as (s.gateUp p.iface p.sender)))
  | .tick => .isTrue trivial

instance : (s : Tables) → (es : List Event) → Decidable (Along C s es)
  | _, [] => .isTrue trivial
  | s, e :: es =>
    match h : step s e with
    | some t =>
      have := instDecidableAlong t es
      decidable_of_iff (EachIn C s e ∧ Along C t es) (by simp [Along, h])
    | none => decidable_of_iff (EachIn C s e) (by simp [Along, h])

end

end Netatalk.Rtmp
