import KeyReserve.Link.Key
import KeyReserve.Random.Stream

/-!
# Routes and their native order

A route leads to a destination over a next hop. A routing protocol offers the routes that it
knows as candidates, in its native order: newer sequence numbers first, of those the shorter
routes first, and of those the ones with the smaller random draw.

## Main definitions

* `Route`, `Candidate`, `RouteRequest`;
* `Candidate.nativeOrder`: the candidates with their draws, put in order.
-/

namespace KeyReserve

/-- The way to a destination over a next hop. -/
structure Route where
  destination : NodeId
  nextHop : NodeId
  deriving DecidableEq, Inhabited

namespace Route

theorem eq_of_pairRank_eq {a b : Route}
    (h : NodeId.pairRank a.destination a.nextHop = NodeId.pairRank b.destination b.nextHop) :
    a = b := by
  obtain ⟨ad, av⟩ := a
  obtain ⟨bd, bv⟩ := b
  obtain ⟨rfl, rfl⟩ := NodeId.eq_of_pairRank_eq h
  rfl

instance : Ranked Route := ⟨fun r => NodeId.pairRank r.destination r.nextHop, eq_of_pairRank_eq⟩

/-- The link over which a node sends on the route. -/
def link (r : Route) (home : NodeId) : LinkKey := .join home r.nextHop

/-- The written form, such as "node:9 via node:2". -/
def text (r : Route) : String := r.destination.text ++ " via " ++ r.nextHop.text

end Route

/-- A route that a protocol offers. -/
structure Candidate where
  route : Route
  hops : UInt8
  seq : UInt32
  deriving DecidableEq, Inhabited

namespace Candidate

def nextHop (c : Candidate) : NodeId := c.route.nextHop

/-- Whether a candidate with its draw may stand before another with its draw: newer first, then
shorter, then by draw. -/
def mayPrecede (a b : Candidate × UInt32) : Bool :=
  if a.1.seq = b.1.seq then
    if a.1.hops = b.1.hops then a.2 ≤ b.2 else a.1.hops < b.1.hops
  else
    b.1.seq < a.1.seq

/-- The candidates in native order; those that tie in everything stay in the order given. -/
def nativeOrder (drawn : List (Candidate × UInt32)) : List Candidate :=
  (drawn.mergeSort mayPrecede).map (·.1)

end Candidate

/-- A request for a route, to be sent out at a time with some jitter. -/
structure RouteRequest where
  destination : NodeId
  id : UInt32
  sendAt : Millis
  deriving DecidableEq, Inhabited

/-- The destinations of some routes, each named once. -/
def Route.destinations : List Route → List NodeId
  | [] => []
  | r :: rs =>
    if rs.any (·.destination = r.destination) then destinations rs
    else r.destination :: destinations rs

end KeyReserve
