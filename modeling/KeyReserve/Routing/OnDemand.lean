import KeyReserve.Routing.Candidate

/-!
# The reactive protocol

An on-demand cache learns routes from replies and forgets them after a lifetime. A reply takes the
place of what is known unless that is still alive and has a newer sequence number. Where no route
is known a request is sent out, after a random jitter.

## Main definitions

* `OnDemand`, `OnDemand.onRouteReply`: the cache, and what a reply does to it;
* `OnDemand.candidates`: the live routes to a destination in native order;
* `OnDemand.request`, `OnDemand.purge`.
-/

namespace KeyReserve

/-- What is known of a route. -/
structure OnDemand.Entry where
  hops : UInt8
  seq : UInt32
  /-- The last instant at which the route is alive. -/
  expiresAt : Millis
  deriving DecidableEq, Inhabited

def OnDemand.Entry.isExpired (e : OnDemand.Entry) (now : Millis) : Bool := e.expiresAt < now

/-- A cache of routes learned on demand. -/
structure OnDemand where
  /-- The node whose cache it is. -/
  home : NodeId
  routes : Table Route OnDemand.Entry
  /-- How long a route lives. -/
  lifetime : Millis
  /-- The greatest jitter of a request. -/
  maxJitter : Millis
  nextRequest : UInt32
  stream : RandomStream

namespace OnDemand

/-- An empty cache; it draws from the first stream of seed zero until it is given another. -/
def ofNode (home : NodeId) (lifetime maxJitter : Millis) : OnDemand :=
  { home, routes := .empty, lifetime, maxJitter, nextRequest := 0, stream := .ofRun 0 0 }

/-- Whether an entry gives way to a reply with this sequence number. -/
def Entry.yieldsTo (e : Entry) (seq : UInt32) (now : Millis) : Bool :=
  e.isExpired now || e.seq ≤ seq

/-- Takes a route in, and says whether the cache has changed. -/
def onRouteReply (t : OnDemand) (nextHop destination : NodeId) (hops : UInt8) (seq : UInt32)
    (now : Millis) : Bool × OnDemand :=
  if destination = t.home || nextHop = t.home then
    (false, t)
  else
    let route : Route := ⟨destination, nextHop⟩
    -- a reply with the same number takes the place of a live route, whatever its length
    if (t.routes.find? route).all (·.yieldsTo seq now) then
      (true, { t with routes := t.routes.insert route ⟨hops, seq, now.addSat t.lifetime⟩ })
    else
      (false, t)

/-- The live routes to a destination, by ascending next hop. -/
def routesTo (t : OnDemand) (destination : NodeId) (now : Millis) : List Candidate :=
  (t.routes.entries.filter
    (fun e => e.1.destination = destination && !e.2.isExpired now)).map
    fun e => ⟨e.1, e.2.hops, e.2.seq⟩

/-- The live routes to a destination in native order, with one draw for each. -/
def candidates (t : OnDemand) (destination : NodeId) (now : Millis) :
    List Candidate × OnDemand :=
  let (drawn, stream) := RandomStream.wordsFor (t.routesTo destination now) t.stream
  (Candidate.nativeOrder drawn, { t with stream })

/-- A request for a route to another node. -/
def request (t : OnDemand) (destination : NodeId) (now : Millis) :
    Option RouteRequest × OnDemand :=
  if destination = t.home then
    (none, t)
  else
    let (jitter, stream) := t.stream.upTo t.maxJitter
    (some ⟨destination, t.nextRequest, now.addSat jitter⟩,
      { t with nextRequest := t.nextRequest + 1, stream })

/-- The number of destinations with a route, alive or not yet purged. -/
def destinations (t : OnDemand) : Nat := (Route.destinations t.routes.keys).length

/-- The cache without the routes over a next hop, and their number. -/
def removeNextHop (t : OnDemand) (nextHop : NodeId) : Nat × OnDemand :=
  let kept := t.routes.filter (fun r _ => r.nextHop ≠ nextHop)
  (t.routes.size - kept.size, { t with routes := kept })

/-- The cache without the expired routes, and their number. -/
def purge (t : OnDemand) (now : Millis) : Nat × OnDemand :=
  let kept := t.routes.filter (fun _ e => !e.isExpired now)
  (t.routes.size - kept.size, { t with routes := kept })

end OnDemand

end KeyReserve
