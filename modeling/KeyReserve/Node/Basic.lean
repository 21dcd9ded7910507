import KeyReserve.Agenda
import KeyReserve.Config.Basic
import KeyReserve.Event
import KeyReserve.Packet.Securing
import KeyReserve.Transport

/-!
# Nodes

A node owns its links with their key buffers, charges them, finds routes and sends packets. It is
driven by calls, by word from the transport and by the timers on its agenda, and records what can
be observed. Each operation is a function from a node to an answer and the node afterwards.

## Main definitions

* `Node`, `Node.create`: a node, and the one that a configuration makes;
* `Timer`, `Phase`, `NodeError`;
* `Node.record`, `Node.submit`, `Node.schedule`, `Node.cancelTimer`: the steps of which the
  operations are made.
-/

namespace KeyReserve

/-- What a node may set a timer for. -/
inductive Timer where
  /-- The next round of the session on a link. -/
  | chargingRound (link : LinkKey)
  /-- The end of the wait of a packet. -/
  | deadline (link : LinkKey) (packet : PacketId)
  | tick
  deriving DecidableEq

/-- How far a node is in its life. -/
inductive Phase where
  | created
  | running
  | stopped
  deriving DecidableEq, Inhabited

/-- The written form of a phase. -/
def Phase.text : Phase → String
  | .created => "created"
  | .running => "running"
  | .stopped => "stopped"

/-- Why an operation of a node fails. -/
inductive NodeError where
  | alreadyStarted
  | notRunning (phase : Phase)
  | config (cause : ConfigError)
  | link (cause : LinkError)
  | charging (cause : ChargingError)
  | routing (cause : RoutingError)
  | transport (cause : TransportError)
  deriving DecidableEq

/-- The wording of a node error. -/
def NodeError.message : NodeError → String
  | .alreadyStarted => "node already started"
  | .notRunning phase => "node not running (" ++ phase.text ++ ")"
  | .config cause => "config error: " ++ cause.message
  | .link cause => "link error: " ++ cause.message
  | .charging cause => "charging error: " ++ cause.message
  | .routing cause => "routing error: " ++ cause.message
  | .transport cause => "transport error: " ++ cause.message

/-- A node of the network with all that it drives. -/
structure Node where
  id : NodeId
  config : Config
  phase : Phase
  links : Links
  charger : Charger
  protocols : Protocols
  routing : KeyAware
  deadlines : Deadlines
  /-- The secured packets that wait for a next hop, the longest waiting first. -/
  queues : Table NodeId (List SecuredPacket)
  agenda : Agenda Timer
  tickTimer : Option TimerId
  /-- What has been recorded and not yet been read, the earliest first. -/
  events : List Event
  transport : Transport

namespace Node

/-- The role of the protocol that the node uses. -/
def role (n : Node) : Role := n.config.routing.protocol

/-- The one protocol of a configuration, with its random stream. -/
def protocolsFor (id : NodeId) (s : RoutingSettings) : Protocols :=
  let installed : Protocols :=
    match s.protocol with
    | .proactive => { proactive := some (.ofNode id s.maxRequestJitter) }
    | .reactive => { reactive := some (.ofNode id s.routeLifetime s.maxRequestJitter) }
  (installed.assignStreams s.seed s.firstStream).2

/-- The node that a configuration makes, if it passes the check. -/
def create (config : Config) (transport : Transport) : Except NodeError Node :=
  match config.check with
  | .error e => .error (.config e)
  | .ok id =>
    .ok
      { id, config
        phase := .created
        links := .empty
        charger := .ofSettings config.charging
        protocols := protocolsFor id config.routing
        routing := .ofSettings id config.routing
        deadlines := .empty
        queues := .empty
        agenda := .empty
        tickTimer := none
        events := []
        transport }

/-! ## Steps -/

/-- The link to a peer. -/
def linkTo (n : Node) (peer : NodeId) : LinkKey := .join n.id peer

/-- Adds an event to the record. -/
def record (n : Node) (e : Event) : Node := { n with events := n.events ++ [e] }

/-- Reads the record and empties it. -/
def drainEvents (n : Node) : List Event × Node := (n.events, { n with events := [] })

/-- Hands something to the transport. -/
def submit (n : Node) (r : Request) : Option TransportError × Node :=
  let (failure, transport) := n.transport.submit r
  (failure, { n with transport })

/-- Sets a timer. -/
def schedule (n : Node) (due : Millis) (timer : Timer) : TimerId × Node :=
  let (id, agenda) := n.agenda.schedule due timer
  (id, { n with agenda })

/-- Takes back a timer, if there is one. -/
def cancelTimer (n : Node) : Option TimerId → Node
  | none => n
  | some id => { n with agenda := n.agenda.cancel id }

/-- Counts something on a link, if it is up. -/
def count (n : Node) (link : LinkKey) (f : LinkStats → LinkStats) : Node :=
  { n with links := n.links.modify link fun l => { l with stats := f l.stats } }

/-- The secured packets that wait for a next hop. -/
def queue (n : Node) (nextHop : NodeId) : List SecuredPacket :=
  (n.queues.find? nextHop).getD []

/-- Replaces the packets that wait for a next hop; no queue is kept without a packet. -/
def setQueue (n : Node) (nextHop : NodeId) (packets : List SecuredPacket) : Node :=
  { n with
    queues :=
      if packets.isEmpty then n.queues.erase nextHop else n.queues.insert nextHop packets }

end Node

end KeyReserve
