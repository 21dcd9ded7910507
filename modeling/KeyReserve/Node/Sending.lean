import KeyReserve.Node.Charging
import KeyReserve.Node.Waiting

/-!
# Sending packets

A secured packet takes the first viable route on which it can be paid for. Other packets take the
first route that is viable for them, and cost nothing.

## Main definitions

* `Node.payOnFirst`: pays for a packet on the first of several routes that can;
* `Node.sendSecured`, `Node.sendBestEffort`.
-/

namespace KeyReserve

namespace Node

/-- Asks for a route, and says whether the request has gone out. -/
def requestRoute (n : Node) (destination : NodeId) (now : Millis) : Bool × Node :=
  match n.protocols.request n.role destination now with
  | .error _ => (false, n)
  -- the protocol has nothing to ask for
  | .ok (none, protocols) => (false, { n with protocols })
  | .ok (some request, protocols) =>
    match { n with protocols }.submit (.route request) with
    | (none, n) => (true, n)
    | (some _, n) => (false, n)

/-- Reports that a packet cannot be sent for want of key material. -/
def refuseSecured (n : Node) (packet : Packet) : SendOutcome × Node :=
  (.noSecuredRoute packet, n.record (.noSecuredRoute packet.destination packet.id))

/-- Pays for a packet on the first route whose link is up and has the key material. Each link
before that counts a refusal. -/
def payOnFirst (n : Node) (packet : Packet) : List RankedRoute → Option Secured × Node
  | [] => (none, n)
  | r :: rs =>
    let nextHop := r.candidate.nextHop
    let key := n.linkTo nextHop
    match n.links.find? key with
    | none =>
      -- a link that is down counts nothing
      n.payOnFirst packet rs
    | some link =>
      let (link, paid) := link.secure key n.config.cost packet nextHop
      let n := { n with links := n.links.insert key link }
      match paid with
      | .ok secured => (some secured, n)
      | .error _ =>
        -- the refusal has been counted, and the next route is tried
        n.payOnFirst packet rs

/-- Sends a packet that has been paid for, after what follows from the debit. -/
def sendPaid (n : Node) (secured : Secured) (maxDelay : Option Millis) (now : Millis) :
    Except NodeError SendOutcome × Node :=
  -- a drop may open a session before the packet leaves
  let n :=
    match secured.crossing with
    | some crossing => n.levelCrossed secured.packet.link crossing now
    | none => n
  n.dispatch (secured.packet.tagged (maxDelay.getD n.config.delay.defaultMaxDelay) now)

/-- Sends a packet for which key material is to be spent. -/
def sendSecured (n : Node) (packet : Packet) (maxDelay : Option Millis) (now : Millis) :
    Except NodeError SendOutcome × Node :=
  if n.phase ≠ .running then
    (.error (.notRunning n.phase), n)
  else
    match n.protocols.candidates n.role packet.destination now with
    | .error e => (.error (.routing e), n)
    | .ok (candidates, protocols) =>
      -- the draws of the lookup stay made, whatever comes of the packet
      let n := { n with protocols }
      if candidates.isEmpty then
        let (requested, n) := n.requestRoute packet.destination now
        (.ok (.noRoute packet requested), n)
      else
        match n.routing.select packet.destination candidates n.links now with
        | (.noRoute, routing) => (.ok (.noRoute packet false), { n with routing })
        | (.noViableRoute _, routing) =>
          let (outcome, n) := { n with routing }.refuseSecured packet
          (.ok outcome, n)
        | (.routes viable, routing) =>
          match { n with routing }.payOnFirst packet viable with
          | (some secured, n) => n.sendPaid secured maxDelay now
          | (none, n) =>
            -- links that were fit for secured traffic have fallen short of this packet
            let n := { n with routing := (n.routing.markUnreachable packet.destination).2 }
            let (outcome, n) := n.refuseSecured packet
            (.ok outcome, n)

/-- Sends a packet that costs no key material. -/
def sendBestEffort (n : Node) (packet : Packet) (now : Millis) :
    Except NodeError SendOutcome × Node :=
  if n.phase ≠ .running then
    (.error (.notRunning n.phase), n)
  else
    match n.protocols.candidates n.role packet.destination now with
    | .error e => (.error (.routing e), n)
    | .ok (candidates, protocols) =>
      let (ranked, routing) := n.routing.rank candidates .bestEffort n.links now
      let n := { n with protocols, routing }
      match ranked.find? (·.appraisal.viable) with
      | none =>
        let (requested, n) := n.requestRoute packet.destination now
        (.ok (.noRoute packet requested), n)
      | some best =>
        match n.submit (.plain best.candidate.nextHop packet) with
        | (none, n) => (.ok (.sent best.candidate.nextHop 0), n)
        | (some e, n) => (.error (.transport e), n)

end Node

end KeyReserve
