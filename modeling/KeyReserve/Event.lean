import KeyReserve.Buffer
import KeyReserve.Packet.Deadline

/-!
# Events

What can be observed of key buffers, charging and secured delivery on a node, as one kind of
record for each occurrence.
-/

namespace KeyReserve

/-- Something that happened on a node. -/
inductive Event where
  /-- A buffer crossed its threshold. -/
  | levelChanged (link : LinkKey) (crossing : Crossing)
  | chargingStarted (link : LinkKey) (session : SessionId) (target : Bytes)
  /-- A delivery was put into a buffer, which brought it to a level. -/
  | chargingProgress (link : LinkKey) (session : SessionId) (applied current : Bytes)
  | chargingCompleted (link : LinkKey) (session : SessionId) (delivered applied : Bytes)
  | chargingAbandoned (link : LinkKey) (session : SessionId) (delivered : Bytes) (reason : String)
  | packetExpired (exceeded : DelayExceeded)
  | noSecuredRoute (destination : NodeId) (packet : PacketId)
  deriving DecidableEq

namespace Event

/-- The link on which it happened. -/
def link? : Event → Option LinkKey
  | .levelChanged link _ => some link
  | .chargingStarted link _ _ => some link
  | .chargingProgress link _ _ _ => some link
  | .chargingCompleted link _ _ _ => some link
  | .chargingAbandoned link _ _ _ => some link
  | .packetExpired exceeded => some exceeded.link
  | .noSecuredRoute _ _ => none

/-- The name of the kind of event. -/
def kind : Event → String
  | .levelChanged .. => "level_changed"
  | .chargingStarted .. => "charging_started"
  | .chargingProgress .. => "charging_progress"
  | .chargingCompleted .. => "charging_completed"
  | .chargingAbandoned .. => "charging_abandoned"
  | .packetExpired .. => "packet_expired"
  | .noSecuredRoute .. => "no_secured_route"

/-- The event in one line. -/
def text : Event → String
  | .levelChanged link c => link.text ++ " " ++ c.level.text ++ s!" ({c.current} bytes)"
  | .chargingStarted link session target =>
    link.text ++ " " ++ session.text ++ s!" started, target {target} bytes"
  | .chargingProgress link session applied current =>
    link.text ++ " " ++ session.text ++ s!" +{applied} bytes, now {current}"
  | .chargingCompleted link session delivered _ =>
    link.text ++ " " ++ session.text ++ s!" completed after {delivered} bytes"
  | .chargingAbandoned link session _ reason =>
    link.text ++ " " ++ session.text ++ " abandoned: " ++ reason
  | .packetExpired exceeded => exceeded.message
  | .noSecuredRoute destination packet =>
    "no secured route to " ++ destination.text ++ " for " ++ packet.text

end Event

end KeyReserve
