import KeyReserve.Routing.DistanceVector
import KeyReserve.Routing.OnDemand

/-!
# Routes by destination

A directory keeps routes under their destinations, and those to one destination under their next
hops. A destination has its place from the moment at which a route to it is told of, whether or not
the route is taken in, and loses it when a sweep leaves no route to it.

Either protocol can keep its routes in a directory. What it does with them is told here once more in
these terms.

## Main definitions

* `Directory`, `Directory.take`, `Directory.sweep`: the routes, how one is taken in, and how several
  are taken out;
* `DistanceVector.Filed`, `OnDemand.Filed`: the protocols with their routes in a directory.
-/

namespace KeyReserve

/-- Routes by their destinations, and to each destination by their next hops. -/
abbrev Directory (ν : Type) := Table NodeId (Table NodeId ν)

namespace Directory

variable {ν : Type}

/-- The routes to a destination, by next hop. -/
def toward (d : Directory ν) (destination : NodeId) : Table NodeId ν :=
  (d.find? destination).getD .empty

/-- Gives a destination its place, if it has none. -/
def reserve (d : Directory ν) (destination : NodeId) : Directory ν :=
  d.insert destination (d.toward destination)

/-- Takes in what is told of a route, unless there is an entry for the route that does not give way,
and says whether it was taken in. -/
def take (d : Directory ν) (route : Route) (entry : ν) (yields : ν → Bool) :
    Bool × Directory ν :=
  -- the destination is given its place first
  let d := d.reserve route.destination
  let routes := d.toward route.destination
  if (routes.find? route.nextHop).all yields then
    (true, d.insert route.destination (routes.insert route.nextHop entry))
  else
    (false, d)

/-- Visits one destination after the other. A visit says how many routes it takes out and which it
leaves, and a destination to which none is left is dropped. -/
def visitAll (visit : Table NodeId ν → Nat × Table NodeId ν) :
    List (NodeId × Table NodeId ν) → Nat × List (NodeId × Table NodeId ν)
  | [] => (0, [])
  | (destination, routes) :: rest =>
    let (removed, left) := visit routes
    let (others, rest) := visitAll visit rest
    (removed + others, if left.isEmpty then rest else (destination, left) :: rest)

theorem map_fst_visitAll_sublist (visit : Table NodeId ν → Nat × Table NodeId ν)
    (es : List (NodeId × Table NodeId ν)) :
    ((visitAll visit es).2.map (·.1)).Sublist (es.map (·.1)) := by
  induction es with
  | nil => exact .slnil
  | cons e es ih =>
    simp only [visitAll]
    split
    · exact ih.cons e.1
    · exact ih.cons_cons e.1

theorem pairwise_visitAll (d : Directory ν) (visit : Table NodeId ν → Nat × Table NodeId ν) :
    (visitAll visit d.entries).2.Pairwise (fun a b => rank a.1 < rank b.1) := by
  have hkeys : ((visitAll visit d.entries).2.map (·.1)).Pairwise (fun a b => rank a < rank b) :=
    d.keys_pairwise.sublist (map_fst_visitAll_sublist visit d.entries)
  exact (List.pairwise_map (f := Prod.fst)).1 hkeys

/-- The directory after a visit to each destination, and the number of routes taken out. -/
def sweep (d : Directory ν) (visit : Table NodeId ν → Nat × Table NodeId ν) :
    Nat × Directory ν :=
  ((visitAll visit d.entries).1, ⟨(visitAll visit d.entries).2, d.pairwise_visitAll visit⟩)

/-- Takes out the route over a next hop, if there is one. -/
def dropHop (nextHop : NodeId) (routes : Table NodeId ν) : Nat × Table NodeId ν :=
  (if routes.contains nextHop then 1 else 0, routes.erase nextHop)

/-- Takes out the routes that fail a test. -/
def retain (keeps : ν → Bool) (routes : Table NodeId ν) : Nat × Table NodeId ν :=
  let kept := routes.filter fun _ e => keeps e
  (routes.size - kept.size, kept)

end Directory

/-! ## The proactive protocol -/

/-- A distance-vector table that keeps its routes in a directory. -/
structure DistanceVector.Filed where
  /-- The node whose table it is. -/
  home : NodeId
  routes : Directory DistanceVector.Entry
  /-- The greatest jitter of a periodic update. -/
  maxJitter : Millis
  stream : RandomStream

namespace DistanceVector.Filed

/-- An empty table that draws from a stream. -/
def ofNode (home : NodeId) (maxJitter : Millis) (stream : RandomStream) : Filed :=
  { home, routes := .empty, maxJitter, stream }

/-- Takes a route in, and says whether the table has changed. -/
def learn (t : Filed) (route : Route) (hops : UInt8) (seq : UInt32) (now : Millis) :
    Bool × Filed :=
  if route.destination = t.home || route.nextHop = t.home then
    (false, t)
  else
    let (changed, routes) := t.routes.take route ⟨hops, seq, now⟩ (·.yieldsTo hops seq)
    (changed, { t with routes })

/-- The known routes to a destination, by ascending next hop. -/
def routesTo (t : Filed) (destination : NodeId) : List Candidate :=
  (t.routes.toward destination).entries.map fun e => ⟨⟨destination, e.1⟩, e.2.hops, e.2.seq⟩

/-- The known routes to a destination in native order, with one draw for each. -/
def candidates (t : Filed) (destination : NodeId) : List Candidate × Filed :=
  let (drawn, stream) := RandomStream.wordsFor (t.routesTo destination) t.stream
  (Candidate.nativeOrder drawn, { t with stream })

/-- The jitter of the next periodic update. -/
def updateJitter (t : Filed) : Millis × Filed :=
  let (jitter, stream) := t.stream.upTo t.maxJitter
  (jitter, { t with stream })

/-- The number of destinations that have a place. -/
def destinations (t : Filed) : Nat := t.routes.size

/-- The table without the routes over a next hop, and their number. -/
def removeNextHop (t : Filed) (nextHop : NodeId) : Nat × Filed :=
  let (removed, routes) := t.routes.sweep (Directory.dropHop nextHop)
  (removed, { t with routes })

end DistanceVector.Filed

/-! ## The reactive protocol -/

/-- An on-demand cache that keeps its routes in a directory. -/
structure OnDemand.Filed where
  /-- The node whose cache it is. -/
  home : NodeId
  routes : Directory OnDemand.Entry
  /-- How long a route lives. -/
  lifetime : Millis
  /-- The greatest jitter of a request. -/
  maxJitter : Millis
  nextRequest : UInt32
  stream : RandomStream

namespace OnDemand.Filed

/-- An empty cache that draws from a stream. -/
def ofNode (home : NodeId) (lifetime maxJitter : Millis) (stream : RandomStream) : Filed :=
  { home, routes := .empty, lifetime, maxJitter, nextRequest := 0, stream }

/-- Takes a route in, and says whether the cache has changed. -/
def onRouteReply (t : Filed) (nextHop destination : NodeId) (hops : UInt8) (seq : UInt32)
    (now : Millis) : Bool × Filed :=
  if destination = t.home || nextHop = t.home then
    (false, t)
  else
    let (changed, routes) := t.routes.take ⟨destination, nextHop⟩ ⟨hops, seq, now.addSat t.lifetime⟩
      (·.yieldsTo seq now)
    (changed, { t with routes })

/-- The live routes to a destination, by ascending next hop. -/
def routesTo (t : Filed) (destination : NodeId) (now : Millis) : List Candidate :=
  ((t.routes.toward destination).entries.filter (!·.2.isExpired now)).map
    fun e => ⟨⟨destination, e.1⟩, e.2.hops, e.2.seq⟩

/-- The live routes to a destination in native order, with one draw for each. -/
def candidates (t : Filed) (destination : NodeId) (now : Millis) : List Candidate × Filed :=
  let (drawn, stream) := RandomStream.wordsFor (t.routesTo destination now) t.stream
  (Candidate.nativeOrder drawn, { t with stream })

/-- A request for a route to another node. -/
def request (t : Filed) (destination : NodeId) (now : Millis) : Option RouteRequest × Filed :=
  if destination = t.home then
    (none, t)
  else
    let (jitter, stream) := t.stream.upTo t.maxJitter
    (some ⟨destination, t.nextRequest, now.addSat jitter⟩,
      { t with nextRequest := t.nextRequest + 1, stream })

/-- The number of destinations that have a place. -/
def destinations (t : Filed) : Nat := t.routes.size

/-- The cache without the routes over a next hop, and their number. -/
def removeNextHop (t : Filed) (nextHop : NodeId) : Nat × Filed :=
  let (removed, routes) := t.routes.sweep (Directory.dropHop nextHop)
  (removed, { t with routes })

/-- The cache without the expired routes, and their number. -/
def purge (t : Filed) (now : Millis) : Nat × Filed :=
  let (purged, routes) := t.routes.sweep (Directory.retain (!·.isExpired now))
  (purged, { t with routes })

end OnDemand.Filed

end KeyReserve
