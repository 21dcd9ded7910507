import KeyReserve.Node.Basic

/-!
# Packets that wait

Secured packets that the transport is too busy for wait in a queue for each next hop, and leave it
in the order in which they came. A packet with a bound on its age has a timer while it waits.

## Main definitions

* `Node.dispatch`: sends a packet at once or lets it wait;
* `Node.linkReady`: sends what waits for a next hop;
* `Node.expireWaiting`: ends the wait of a packet whose timer has fired.
-/

namespace KeyReserve

/-- What came of a packet. -/
inductive SendOutcome where
  | sent (nextHop : NodeId) (cost : Bytes)
  /-- The packet is paid for and waits. -/
  | queued (nextHop : NodeId) (cost : Bytes)
  /-- There are routes, but none on which the packet can be paid for. -/
  | noSecuredRoute (packet : Packet)
  /-- There is no route; one may have been asked for. -/
  | noRoute (packet : Packet) (requested : Bool)
  deriving DecidableEq

/-- The next hop that the packet has left for, if it has. -/
def SendOutcome.nextHop? : SendOutcome → Option NodeId
  | .sent hop _ => some hop
  | .queued hop _ => some hop
  | .noSecuredRoute _ => none
  | .noRoute _ _ => none

namespace Node

/-- Sets the timer of a waiting packet for the first instant at which it is too old, or for the
instant after a given one if that is later. A packet that is never too old has no timer. -/
def armDeadline (n : Node) (p : SecuredPacket) (notBefore : Millis) : Node :=
  match p.delay.bind (·.deadline?) with
  | none => n
  | some deadline =>
    let last := if notBefore ≤ deadline then deadline else notBefore
    if last = 0xFFFFFFFFFFFFFFFF then
      -- no instant comes after this one
      n
    else
      let (timer, n) := n.schedule (last + 1) (.deadline p.link p.id)
      { n with deadlines := n.deadlines.insert p.id ⟨p.link, timer⟩ }

/-- Takes back the timer of a packet. -/
def disarmDeadline (n : Node) (packet : PacketId) : Node :=
  let timer := Deadlines.timer? n.deadlines packet
  { n with deadlines := n.deadlines.erase packet }.cancelTimer timer

/-- Records the expiry of a packet. -/
def recordExpired (n : Node) (e : DelayExceeded) : Node :=
  (n.count e.link .expired).record (.packetExpired e)

/-- Lets a packet wait behind those that wait for its next hop. -/
def enqueue (n : Node) (p : SecuredPacket) : Node :=
  let n := n.armDeadline p 0
  n.setQueue p.nextHop (n.queue p.nextHop ++ [p])

/-- Sends a packet, unless others wait for its next hop or the transport is busy; then it waits as
well. -/
def dispatch (n : Node) (p : SecuredPacket) : Except NodeError SendOutcome × Node :=
  if (n.queue p.nextHop).isEmpty then
    match n.submit (.secured p) with
    | (none, n) => (.ok (.sent p.nextHop p.cost), n)
    | (some e, n) =>
      if e.isBusy then (.ok (.queued p.nextHop p.cost), n.enqueue p)
      else (.error (.transport e), n)
  else
    (.ok (.queued p.nextHop p.cost), n.enqueue p)

/-- Sends packets until the transport is busy, and gives the number sent and those left over.
Packets past their bound are dropped, and so are those that the transport refuses for good. -/
def sendWaiting (n : Node) (now : Millis) :
    List SecuredPacket → Nat × List SecuredPacket × Node
  | [] => (0, [], n)
  | p :: ps =>
    match p.expiry? now with
    | some e => ((n.disarmDeadline p.id).recordExpired e).sendWaiting now ps
    | none =>
      match n.submit (.secured p) with
      | (none, n) =>
        let (sent, left, n) := (n.disarmDeadline p.id).sendWaiting now ps
        (sent + 1, left, n)
      | (some e, n) =>
        -- a packet that the transport is too busy for stays in front, with its timer
        if e.isBusy then (0, p :: ps, n) else (n.disarmDeadline p.id).sendWaiting now ps

/-- Sends what waits for a next hop, and gives the number of packets sent. -/
def linkReady (n : Node) (nextHop : NodeId) (now : Millis) : Nat × Node :=
  -- the queue is empty while its packets are sent
  let waiting := n.queue nextHop
  let n := n.setQueue nextHop []
  let (sent, left, n) := n.sendWaiting now waiting
  (sent, n.setQueue nextHop left)

/-- Drops a waiting packet whose timer has fired, or sets its timer again if it has fired early.
Of several packets with one number it is the first in the queue. -/
def expireWaiting (n : Node) (link : LinkKey) (packet : PacketId) (now : Millis) : Node :=
  if n.deadlines.contains packet then
    -- the timer has fired, so there is none to take back
    let n := { n with deadlines := n.deadlines.erase packet }
    match link.other n.id with
    | none => n
    | some nextHop =>
      match (n.queue nextHop).find? (·.id = packet) with
      | none => n
      | some p =>
        match p.expiry? now with
        | some e =>
          (n.setQueue nextHop ((n.queue nextHop).eraseP (·.id = packet))).recordExpired e
        | none => n.armDeadline p now
  else
    -- the packet has left its queue before its timer
    n

end Node

end KeyReserve
