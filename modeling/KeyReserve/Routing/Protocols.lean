import KeyReserve.Routing.DistanceVector
import KeyReserve.Routing.OnDemand

/-!
# Installed protocols

A node has room for one protocol of each role. The protocols of one run draw from streams of their
own, which are numbered in the order of the roles.

## Main definitions

* `Protocols`: the installed protocols;
* `Protocols.candidates`, `Protocols.request`: a lookup and a route request by role;
* `Protocols.assignStreams`.
-/

namespace KeyReserve

/-- How a protocol comes by its routes: ahead of need, or on demand. -/
inductive Role where
  | proactive
  | reactive
  deriving DecidableEq, Inhabited

/-- The written form of a role. -/
def Role.text : Role → String
  | .proactive => "proactive"
  | .reactive => "reactive"

/-- Why an operation on a role is refused. -/
inductive RoutingError where
  | notInstalled (role : Role)
  | alreadyInstalled (role : Role)
  deriving DecidableEq

/-- The wording of a routing error. -/
def RoutingError.message : RoutingError → String
  | .notInstalled role => "no " ++ role.text ++ " routing protocol installed"
  | .alreadyInstalled role => "a " ++ role.text ++ " routing protocol is already installed"

/-- The protocols of a node, at most one of each role. -/
structure Protocols where
  proactive : Option DistanceVector := none
  reactive : Option OnDemand := none

namespace Protocols

def installProactive (p : Protocols) (t : DistanceVector) : Except RoutingError Protocols :=
  if p.proactive.isSome then .error (.alreadyInstalled .proactive)
  else .ok { p with proactive := some t }

def installReactive (p : Protocols) (t : OnDemand) : Except RoutingError Protocols :=
  if p.reactive.isSome then .error (.alreadyInstalled .reactive)
  else .ok { p with reactive := some t }

/-- Whether a protocol of a role is there. -/
def installed (p : Protocols) : Role → Bool
  | .proactive => p.proactive.isSome
  | .reactive => p.reactive.isSome

/-- The routes to a destination that the protocol of a role offers, in its native order. -/
def candidates (p : Protocols) (role : Role) (destination : NodeId) (now : Millis) :
    Except RoutingError (List Candidate × Protocols) :=
  match role with
  | .proactive =>
    match p.proactive with
    | none => .error (.notInstalled .proactive)
    | some t =>
      let (found, t) := t.candidates destination
      .ok (found, { p with proactive := some t })
  | .reactive =>
    match p.reactive with
    | none => .error (.notInstalled .reactive)
    | some t =>
      let (found, t) := t.candidates destination now
      .ok (found, { p with reactive := some t })

/-- The request for a route that the protocol of a role makes; a proactive one makes none. -/
def request (p : Protocols) (role : Role) (destination : NodeId) (now : Millis) :
    Except RoutingError (Option RouteRequest × Protocols) :=
  match role with
  | .proactive =>
    match p.proactive with
    | none => .error (.notInstalled .proactive)
    | some _ => .ok (none, p)
  | .reactive =>
    match p.reactive with
    | none => .error (.notInstalled .reactive)
    | some t =>
      let (request, t) := t.request destination now
      .ok (request, { p with reactive := some t })

/-- Drops the expired routes of the protocol of a role, which only a reactive one has. -/
def purgeRole (p : Protocols) (role : Role) (now : Millis) :
    Except RoutingError (Nat × Protocols) :=
  match role with
  | .proactive =>
    match p.proactive with
    | none => .error (.notInstalled .proactive)
    | some _ => .ok (0, p)
  | .reactive =>
    match p.reactive with
    | none => .error (.notInstalled .reactive)
    | some t =>
      let (purged, t) := t.purge now
      .ok (purged, { p with reactive := some t })

/-- Drops the expired routes of all protocols, and gives their number. -/
def purge (p : Protocols) (now : Millis) : Nat × Protocols :=
  match p.reactive with
  | none => (0, p)
  | some t =>
    let (purged, t) := t.purge now
    (purged, { p with reactive := some t })

/-- Drops the routes over a next hop from all protocols, and gives their number. -/
def removeNextHop (p : Protocols) (nextHop : NodeId) : Nat × Protocols :=
  let proactive := p.proactive.map (·.removeNextHop nextHop)
  let reactive := p.reactive.map (·.removeNextHop nextHop)
  ((proactive.map (·.1)).getD 0 + (reactive.map (·.1)).getD 0,
    { proactive := proactive.map (·.2), reactive := reactive.map (·.2) })

theorem installed_removeNextHop (p : Protocols) (nextHop : NodeId) :
    (p.removeNextHop nextHop).2.installed = p.installed := by
  funext role
  cases role with
  | proactive => simp only [removeNextHop, installed, Option.isSome_map]
  | reactive => simp only [removeNextHop, installed, Option.isSome_map]

/-- Gives the installed protocols consecutive streams of a run, and names the next unused one. -/
def assignStreams (p : Protocols) (seed first : UInt64) : UInt64 × Protocols :=
  let second := if p.proactive.isSome then first + 1 else first
  let unused := if p.reactive.isSome then second + 1 else second
  (unused,
    { proactive := p.proactive.map ({ · with stream := .ofRun seed first })
      reactive := p.reactive.map ({ · with stream := .ofRun seed second }) })

end Protocols

end KeyReserve
