import KeyReserve.Charging.Charger
import KeyReserve.Link.Registry
import KeyReserve.Packet.Tariff
import KeyReserve.Routing.KeyAware

/-!
# Configurations

A configuration has one section for each concern of a node and the list of the links that it
brings up. Every setting has a default.

Configurations cascade: merging takes over, setting by setting, what differs from the default, the
node number where one is given, and the list of links where it is not empty.

## Main definitions

* `Config` and its sections, each with its `standard` values;
* `Config.merge`;
* `Config.check`: the node number is given, no link leads to the node itself, and no peer is
  listed twice.
-/

namespace KeyReserve

/-- Who the node is, and how often it looks after its links. -/
structure NodeSettings where
  id : Option NodeId
  /-- The time between two ticks; with zero there are none. -/
  tickInterval : Millis
  deriving DecidableEq, Inhabited

/-- Bounds on the age of packets. -/
structure DelaySettings where
  /-- The bound of packets that come without one; zero means that there is none. -/
  defaultMaxDelay : Millis
  deriving DecidableEq, Inhabited

/-- A link to be brought up. -/
structure LinkSettings where
  peer : NodeId
  /-- The bounds of its buffer, where they are not those of the buffer section. -/
  bounds : Option Bounds
  deriving DecidableEq, Inhabited

/-- A whole configuration. -/
structure Config where
  node : NodeSettings
  buffer : Bounds
  charging : ChargingSettings
  cost : Tariff
  routing : RoutingSettings
  delay : DelaySettings
  links : List LinkSettings
  deriving DecidableEq, Inhabited

/-- The bounds that hold for a link. -/
def LinkSettings.boundsOr (l : LinkSettings) (buffer : Bounds) : Bounds := l.bounds.getD buffer

/-! ## Standard values -/

def NodeSettings.standard : NodeSettings := { id := none, tickInterval := 1000 }

def Bounds.standard : Bounds :=
  { minimum := 1048576, threshold := 11324620, maximum := 52428800, initial := 52428800 }

def ChargingSettings.standard : ChargingSettings :=
  { sendSize := 524288, roundInterval := 100, totalAmount := 0 }

def Tariff.standard : Tariff :=
  { encryption := .oneTimePad, authentication := .vmac, otpBytesPerByte := 1, aesKeyBytes := 32,
    authTagBytes := 32 }

def RoutingSettings.standard : RoutingSettings :=
  { protocol := .proactive, securedMin := 2048, bestEffortMin := 0, epochLength := 15000,
    seed := 1, firstStream := 0, routeLifetime := 3000, maxRequestJitter := 10 }

def DelaySettings.standard : DelaySettings := { defaultMaxDelay := 0 }

/-- The configuration in which nothing is set. -/
def Config.standard : Config :=
  { node := .standard, buffer := .standard, charging := .standard, cost := .standard,
    routing := .standard, delay := .standard, links := [] }

/-- The configuration in which only the node number is set. -/
def Config.forNode (id : NodeId) : Config :=
  { Config.standard with node := { NodeSettings.standard with id := some id } }

/-! ## Merging -/

/-- The value that a later source sets, or the earlier one where it sets the default. -/
def override {α : Type} [DecidableEq α] (standard earlier later : α) : α :=
  if later = standard then earlier else later

def NodeSettings.merge (a b : NodeSettings) : NodeSettings :=
  { id := b.id <|> a.id
    tickInterval := override standard.tickInterval a.tickInterval b.tickInterval }

def Bounds.merge (a b : Bounds) : Bounds :=
  { minimum := override standard.minimum a.minimum b.minimum
    threshold := override standard.threshold a.threshold b.threshold
    maximum := override standard.maximum a.maximum b.maximum
    initial := override standard.initial a.initial b.initial }

def ChargingSettings.merge (a b : ChargingSettings) : ChargingSettings :=
  { sendSize := override standard.sendSize a.sendSize b.sendSize
    roundInterval := override standard.roundInterval a.roundInterval b.roundInterval
    totalAmount := override standard.totalAmount a.totalAmount b.totalAmount }

def Tariff.merge (a b : Tariff) : Tariff :=
  { encryption := override standard.encryption a.encryption b.encryption
    authentication := override standard.authentication a.authentication b.authentication
    otpBytesPerByte := override standard.otpBytesPerByte a.otpBytesPerByte b.otpBytesPerByte
    aesKeyBytes := override standard.aesKeyBytes a.aesKeyBytes b.aesKeyBytes
    authTagBytes := override standard.authTagBytes a.authTagBytes b.authTagBytes }

def RoutingSettings.merge (a b : RoutingSettings) : RoutingSettings :=
  { protocol := override standard.protocol a.protocol b.protocol
    securedMin := override standard.securedMin a.securedMin b.securedMin
    bestEffortMin := override standard.bestEffortMin a.bestEffortMin b.bestEffortMin
    epochLength := override standard.epochLength a.epochLength b.epochLength
    seed := override standard.seed a.seed b.seed
    firstStream := override standard.firstStream a.firstStream b.firstStream
    routeLifetime := override standard.routeLifetime a.routeLifetime b.routeLifetime
    maxRequestJitter :=
      override standard.maxRequestJitter a.maxRequestJitter b.maxRequestJitter }

def DelaySettings.merge (a b : DelaySettings) : DelaySettings :=
  { defaultMaxDelay := override standard.defaultMaxDelay a.defaultMaxDelay b.defaultMaxDelay }

/-- A configuration with what a later one sets. -/
def Config.merge (a b : Config) : Config :=
  { node := a.node.merge b.node
    buffer := a.buffer.merge b.buffer
    charging := a.charging.merge b.charging
    cost := a.cost.merge b.cost
    routing := a.routing.merge b.routing
    delay := a.delay.merge b.delay
    links := if b.links.isEmpty then a.links else b.links }

/-! ## The check -/

/-- What is wrong with a listed link. -/
inductive LinkFault where
  /-- The peer is the node itself. -/
  | toSelf
  /-- The peer has been listed before. -/
  | repeated
  deriving DecidableEq

/-- The wording of a fault. -/
def LinkFault.text : LinkFault → String
  | .toSelf => "peer is this node"
  | .repeated => "listed more than once"

/-- Why a configuration does not make a node. -/
inductive ConfigError where
  | missingNodeId
  | invalidLink (peer : NodeId) (fault : LinkFault)
  deriving DecidableEq

/-- The wording of a configuration error. -/
def ConfigError.message : ConfigError → String
  | .missingNodeId => "node.id is not configured"
  | .invalidLink peer fault => "invalid link to " ++ peer.text ++ ": " ++ fault.text

namespace Config

/-- The configured node number. -/
def nodeId (c : Config) : Except ConfigError NodeId :=
  match c.node.id with
  | some id => .ok id
  | none => .error .missingNodeId

/-- The first fault among peers, given those listed before them. -/
def linkFault? (own : NodeId) (before : List NodeId) : List NodeId → Option (NodeId × LinkFault)
  | [] => none
  | p :: ps =>
    if p = own then some (p, .toSelf)
    else if before.contains p then some (p, .repeated)
    else linkFault? own (p :: before) ps

/-- Looks for a fault that keeps a node from being made. Bounds are judged only when their link is
brought up, so that one bad link does not hold up the others. -/
def check (c : Config) : Except ConfigError NodeId :=
  match c.nodeId with
  | .error e => .error e
  | .ok own =>
    match linkFault? own [] (c.links.map (·.peer)) with
    | some (peer, fault) => .error (.invalidLink peer fault)
    | none => .ok own

end Config

end KeyReserve
