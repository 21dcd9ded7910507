import KeyReserve.Node.Basic

/-!
# Charging on a node

The node turns the decisions of its charger into requests to the transport and into timers, and
feeds what is delivered into the buffers.

## Main definitions

* `Node.chargeIfLow`: opens a session on a link that needs one;
* `Node.levelCrossed`: what follows from a crossing of the threshold;
* `Node.chargeDelivered`, `Node.chargeFailed`: word from the transport;
* `Node.chargingRound`: the next round of a session.
-/

namespace KeyReserve

namespace Node

/-- Gives up the session on a link, and says whether there was one. -/
def abandonCharging (n : Node) (link : LinkKey) (reason : String) : Bool × Node :=
  match n.charger.abandon link reason with
  | (_, none) => (false, n)
  | (charger, some gone) =>
    -- what the session has brought stays in the buffer
    let n := { n with charger }
    let n := n.cancelTimer gone.session.followUp
    let n := n.count link .abandoned
    (true, n.record (.chargingAbandoned link gone.session.id gone.session.delivered reason))

/-- Asks the transport for key material, and gives up the session if it refuses. -/
def requestCharge (n : Node) (link : LinkKey) (bytes : Bytes) (now : Millis) : Node :=
  match n.submit (.charge link bytes now) with
  | (none, n) => n
  | (some e, n) => (n.abandonCharging link e.message).2

/-- Opens a session on a link whose buffer is below its threshold, unless one is open. -/
def chargeIfLow (n : Node) (link : LinkKey) (now : Millis) : Node :=
  match n.links.buffer? link with
  | none => n
  | some buffer =>
    match n.charger.openIfLow link buffer now with
    | (_, none) => n
    | (charger, some opened) =>
      let n := { n with charger }
      let n := n.record (.chargingStarted link opened.session opened.target)
      n.requestCharge link opened.firstRound now

/-- Records a crossing, drops the checks of routes over the link, and charges it after a drop. -/
def levelCrossed (n : Node) (link : LinkKey) (crossing : Crossing) (now : Millis) : Node :=
  let n := n.record (.levelChanged link crossing)
  let n := { n with routing := (n.routing.forgetLink link).2 }
  if crossing.isDrop then n.chargeIfLow link now else n

/-- Records the delivery of a session that goes on, and sets the timer of its next round. -/
def awaitRound (n : Node) (link : LinkKey) (applied current : Bytes) (now : Millis) :
    Except NodeError Unit × Node :=
  let n :=
    match n.charger.session? link with
    | some s => n.record (.chargingProgress link s.id applied current)
    | none => n
  let (timer, n) :=
    n.schedule (now.addSat n.config.charging.roundInterval) (.chargingRound link)
  match n.charger.setFollowUp link timer with
  | .error e => (.error (.charging e), n)
  | .ok (charger, replaced) => (.ok (), { n with charger }.cancelTimer replaced)

/-- Records the end of a session that has reached its target. -/
def closeSession (n : Node) (link : LinkKey) (session : Session) : Node :=
  let n := n.cancelTimer session.followUp
  let n := n.count link .completed
  n.record (.chargingCompleted link session.id session.delivered session.applied)

/-- Takes in a delivery of key material for the link to a peer. -/
def chargeDelivered (n : Node) (peer : NodeId) (bytes : Bytes) (now : Millis) :
    Except NodeError Unit × Node :=
  let key := n.linkTo peer
  match n.links.find? key with
  | none => (.error (.link (.notFound key)), n)
  | some link =>
    match n.charger.receive key link.buffer bytes with
    | .error e => (.error (.charging e), n)
    | .ok (charger, buffer, delivery) =>
      let stats := link.stats.charged delivery.applied
      let n := { n with charger, links := n.links.insert key { link with buffer, stats } }
      -- a crossing has its effects before the session goes on or ends
      let n :=
        match delivery.crossing with
        | some crossing => n.levelCrossed key crossing now
        | none => n
      match delivery.progress with
      | .goesOn _ => n.awaitRound key delivery.applied buffer.current now
      | .completed session => (.ok (), n.closeSession key session)

/-- Takes in that no more key material comes for the link to a peer. -/
def chargeFailed (n : Node) (peer : NodeId) (reason : String) : Bool × Node :=
  n.abandonCharging (n.linkTo peer) reason

/-- Asks for the next round of the session on a link, if one is open. -/
def chargingRound (n : Node) (link : LinkKey) (now : Millis) : Node :=
  -- the timer has fired
  let n := { n with charger := (n.charger.takeFollowUp link).1 }
  match n.charger.nextRound link with
  | none => n
  | some bytes => n.requestCharge link bytes now

end Node

end KeyReserve
