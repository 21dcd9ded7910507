import KeyReserve.Node.Charging

/-!
# The life of a node

A node is created, started once and stopped. Its links come up at the start or later, and are torn
down singly or all together when the node stops.

## Main definitions

* `Node.start`, `Node.shutdown`, `Node.tick`;
* `Node.establish`, `Node.teardown`: one link up or down.

## Main results

* `Node.exists_teardown`: what is left of a node once a link is gone, its timers aside.
-/

namespace KeyReserve

namespace Node

/-- Brings the link to a peer up: it is registered, made known to a proactive protocol and charged
if it needs to be. -/
def bringUp (n : Node) (peer : NodeId) (bounds : Bounds) (now : Millis) :
    Option LinkError × Node :=
  let key := n.linkTo peer
  match Links.establish n.links key bounds now with
  | .error e => (some e, n)
  | .ok links =>
    -- the sequence number zero gives way to any that is advertised
    let proactive := n.protocols.proactive.map fun t => (t.addNeighbor peer 0 now).2
    let n := { n with links, protocols := { n.protocols with proactive } }
    (none, n.chargeIfLow key now)

/-- Brings several links up, and gives the errors of those that stay down. -/
def bringUpAll (n : Node) (now : Millis) : List LinkSettings → List LinkError × Node
  | [] => ([], n)
  | l :: ls =>
    let (failure, n) := n.bringUp l.peer (l.boundsOr n.config.buffer) now
    let (failures, n) := n.bringUpAll now ls
    (failure.toList ++ failures, n)

/-- Sets the timer of the next tick, unless it is set or there are no ticks. -/
def scheduleTick (n : Node) (now : Millis) : Node :=
  let interval := n.config.node.tickInterval
  if 0 < interval && n.tickTimer.isNone then
    let (timer, n) := n.schedule (now.addSat interval) .tick
    { n with tickTimer := some timer }
  else
    n

/-- Brings up the configured links and starts running, whichever of them stay down. -/
def start (n : Node) (now : Millis) : Except NodeError (List LinkError) × Node :=
  if n.phase ≠ .created then
    (.error .alreadyStarted, n)
  else
    let (failures, n) := n.bringUpAll now n.config.links
    -- links that stay down do not keep the node from running
    (.ok failures, { n with phase := .running }.scheduleTick now)

/-- Brings up a link that is not configured. -/
def establish (n : Node) (peer : NodeId) (bounds : Bounds) (now : Millis) :
    Except NodeError Unit × Node :=
  if n.phase = .stopped then
    (.error (.notRunning n.phase), n)
  else
    match n.bringUp peer bounds now with
    | (some e, n) => (.error (.link e), n)
    | (none, n) => (.ok (), n)

/-- Tears the link to a peer down with all that hangs on it: its session, the packets that wait
for it with their timers, the checks of routes over it and those routes. -/
def teardown (n : Node) (peer : NodeId) : Bool × Node :=
  let key := n.linkTo peer
  let (charger, session) := n.charger.cancel key
  let n := { n with charger }
  let n := n.cancelTimer (session.bind (·.followUp))
  -- the timers of the packets are found by their deadlines, so both go together
  let n :=
    { n with
      agenda := (Deadlines.timersOf n.deadlines key).foldl (fun a t => a.cancel t) n.agenda
      deadlines := Deadlines.dropLink n.deadlines key
      queues := n.queues.erase peer
      routing := (n.routing.forgetLink key).2
      protocols := (n.protocols.removeNextHop peer).2 }
  (n.links.contains key, { n with links := n.links.erase key })

theorem exists_teardown (n : Node) (peer : NodeId) :
    ∃ agenda, n.teardown peer = (n.links.contains (n.linkTo peer), { n with
      links := n.links.erase (n.linkTo peer)
      charger := (n.charger.cancel (n.linkTo peer)).1
      protocols := (n.protocols.removeNextHop peer).2
      routing := (n.routing.forgetLink (n.linkTo peer)).2
      deadlines := n.deadlines.dropLink (n.linkTo peer)
      queues := n.queues.erase peer
      agenda }) := by
  unfold teardown
  simp only
  -- the timer of a session that ends is taken back, if there is one
  cases (n.charger.cancel (n.linkTo peer)).2.bind (·.followUp) <;> exact ⟨_, rfl⟩

/-- Tears down the links under some keys. -/
def teardownAll (n : Node) (keys : List LinkKey) : Node :=
  keys.foldl
    (fun n key =>
      match key.other n.id with
      | some peer => (n.teardown peer).2
      | none => n)
    n

/-- Tears all links down and stops for good. -/
def shutdown (n : Node) : Node :=
  if n.phase = .stopped then
    n
  else
    let n := n.teardownAll n.links.keys
    let n := n.cancelTimer n.tickTimer
    { n with tickTimer := none, phase := .stopped }

/-- Looks after the links: charges those that are low and not being charged, drops expired routes,
and starts a new epoch if the current one is over. -/
def tick (n : Node) (now : Millis) : Node :=
  let n := n.links.keys.foldl (fun n key => n.chargeIfLow key now) n
  { n with
    protocols := (n.protocols.purge now).2
    routing := (n.routing.maybeNewEpoch now).2 }

/-- Takes in an advertisement, which only a proactive protocol can. -/
def onAdvertisement (n : Node) (sender destination : NodeId) (hops : UInt8) (seq : UInt32)
    (now : Millis) : Except NodeError Bool × Node :=
  match n.protocols.proactive with
  | none => (.error (.routing (.notInstalled .proactive)), n)
  | some t =>
    let (changed, t) := t.onAdvertisement sender destination hops seq now
    (.ok changed, { n with protocols := { n.protocols with proactive := some t } })

/-- Takes in a route reply, which only a reactive protocol can. -/
def onRouteReply (n : Node) (nextHop destination : NodeId) (hops : UInt8) (seq : UInt32)
    (now : Millis) : Except NodeError Bool × Node :=
  match n.protocols.reactive with
  | none => (.error (.routing (.notInstalled .reactive)), n)
  | some t =>
    let (changed, t) := t.onRouteReply nextHop destination hops seq now
    (.ok changed, { n with protocols := { n.protocols with reactive := some t } })

end Node

end KeyReserve
