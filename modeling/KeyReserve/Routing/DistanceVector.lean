import KeyReserve.Routing.Candidate

/-!
# The proactive protocol

A distance-vector table learns routes from advertisements and keeps one entry for each destination
and next hop. An entry gives way to one with a newer sequence number, or to a shorter one with the
same number. The node itself is neither destination nor next hop of any entry.

## Main definitions

* `DistanceVector`, `DistanceVector.learn`: the table, and what an advertisement does to it;
* `DistanceVector.candidates`: the routes to a destination in native order.
-/

namespace KeyReserve

/-- What is known of a route. -/
structure DistanceVector.Entry where
  hops : UInt8
  seq : UInt32
  updatedAt : Millis
  deriving DecidableEq, Inhabited

/-- A distance-vector table. -/
structure DistanceVector where
  /-- The node whose table it is. -/
  home : NodeId
  routes : Table Route DistanceVector.Entry
  /-- The greatest jitter of a periodic update. -/
  maxJitter : Millis
  stream : RandomStream

namespace DistanceVector

/-- An empty table; it draws from the first stream of seed zero until it is given another. -/
def ofNode (home : NodeId) (maxJitter : Millis) : DistanceVector :=
  { home, routes := .empty, maxJitter, stream := .ofRun 0 0 }

/-- Whether an entry gives way to a route with this length and sequence number. -/
def Entry.yieldsTo (e : Entry) (hops : UInt8) (seq : UInt32) : Bool :=
  e.seq < seq || (e.seq = seq && hops < e.hops)

/-- Takes a route in, and says whether the table has changed. -/
def learn (t : DistanceVector) (route : Route) (hops : UInt8) (seq : UInt32) (now : Millis) :
    Bool × DistanceVector :=
  -- no route leads to the node itself, or back over it
  if route.destination = t.home || route.nextHop = t.home then
    (false, t)
  else if (t.routes.find? route).all (·.yieldsTo hops seq) then
    (true, { t with routes := t.routes.insert route ⟨hops, seq, now⟩ })
  else
    (false, t)

/-- Takes in that a node is one hop away. -/
def addNeighbor (t : DistanceVector) (neighbor : NodeId) (seq : UInt32) (now : Millis) :
    Bool × DistanceVector :=
  t.learn ⟨neighbor, neighbor⟩ 1 seq now

/-- Takes in what a neighbour says of its own distance to a destination. -/
def onAdvertisement (t : DistanceVector) (sender destination : NodeId) (hops : UInt8)
    (seq : UInt32) (now : Millis) : Bool × DistanceVector :=
  t.learn ⟨destination, sender⟩ hops.succSat seq now

/-- The known routes to a destination, by ascending next hop. -/
def routesTo (t : DistanceVector) (destination : NodeId) : List Candidate :=
  (t.routes.entries.filter (·.1.destination = destination)).map
    fun e => ⟨e.1, e.2.hops, e.2.seq⟩

/-- The known routes to a destination in native order, with one draw for each. -/
def candidates (t : DistanceVector) (destination : NodeId) : List Candidate × DistanceVector :=
  let (drawn, stream) := RandomStream.wordsFor (t.routesTo destination) t.stream
  (Candidate.nativeOrder drawn, { t with stream })

/-- The jitter of the next periodic update. -/
def updateJitter (t : DistanceVector) : Millis × DistanceVector :=
  let (jitter, stream) := t.stream.upTo t.maxJitter
  (jitter, { t with stream })

/-- The number of destinations with a route. -/
def destinations (t : DistanceVector) : Nat := (Route.destinations t.routes.keys).length

/-- When a route was last changed. -/
def updatedAt (t : DistanceVector) (route : Route) : Option Millis :=
  (t.routes.find? route).map (·.updatedAt)

/-- The table without the routes over a next hop, and their number. -/
def removeNextHop (t : DistanceVector) (nextHop : NodeId) : Nat × DistanceVector :=
  let kept := t.routes.filter (fun r _ => r.nextHop ≠ nextHop)
  (t.routes.size - kept.size, { t with routes := kept })

end DistanceVector

end KeyReserve
