import KeyReserve.Node.Charging
import KeyReserve.Node.Waiting
import KeyReserve.Proofs.Settings

/-!
# The stock of a node

The stock of a node is its packets and its key material: what lies in the buffers, what the links
have counted, what waits, what has been handed to the transport and what has expired. Charging
sessions, timers, checks of routes and the counts of sessions are no part of it, so the steps that
only deal with those leave the stock as it is.

## Main definitions

* `HandOver`, `Node.handOvers`, `Node.expiries`, `Node.plainSends`: what a node has done with
  packets, in order;
* `Link.account`: a link without the counts of its charging sessions;
* `Stock`, `Node.stock`: all of these in one value.

## Main results

* `Node.stock_chargeIfLow`, `Node.stock_levelCrossed`, `Node.stock_chargingRound`: charging takes
  nothing out of the stock and puts nothing into it;
* `Node.stock_armDeadline`, `Node.stock_disarmDeadline`: nor do the timers of packets.
-/

namespace KeyReserve

/-- What a secured packet met with when it was handed to the transport. -/
structure HandOver where
  packet : SecuredPacket
  failure : Option TransportError
  deriving DecidableEq

/-- The hand-over of a secured packet in an exchange, if it is one. -/
def Exchange.handOver? (x : Exchange) : Option HandOver :=
  match x.request with
  | .secured packet => some ⟨packet, x.failure⟩
  | _ => none

/-- The next hop and the packet of an exchange, if the packet goes out unsecured. -/
def Exchange.plain? (x : Exchange) : Option (NodeId × Packet) :=
  match x.request with
  | .plain nextHop packet => some (nextHop, packet)
  | _ => none

/-- The report of an expired packet in an event, if it is one. -/
def Event.expiry? : Event → Option DelayExceeded
  | .packetExpired exceeded => some exceeded
  | _ => none

/-- A link without the counts of its charging sessions. -/
def Link.account (l : Link) : Link :=
  { l with stats := { l.stats with sessionsCompleted := 0, sessionsAbandoned := 0 } }

/-- The packets and the key material of a node. -/
structure Stock where
  settings : Settings
  /-- The links that are up. -/
  accounts : LinkKey → Option Link
  /-- The packets that wait for a next hop. -/
  queue : NodeId → List SecuredPacket
  /-- The secured packets handed to the transport, the earliest first. -/
  handOvers : List HandOver
  /-- The packets handed to the transport unsecured, the earliest first. -/
  plainSends : List (NodeId × Packet)
  /-- The reports of expired packets, the earliest first. -/
  expiries : List DelayExceeded

namespace Node

/-- The secured packets that have been handed to the transport, the earliest first. -/
def handOvers (n : Node) : List HandOver :=
  n.transport.history.reverse.filterMap (·.handOver?)

/-- The packets that have been handed to the transport unsecured, the earliest first. -/
def plainSends (n : Node) : List (NodeId × Packet) :=
  n.transport.history.reverse.filterMap (·.plain?)

/-- The reports of the packets that have expired, the earliest first. -/
def expiries (n : Node) : List DelayExceeded := n.events.filterMap (·.expiry?)

def stock (n : Node) : Stock :=
  { settings := n.settings
    accounts := fun key => (n.links.find? key).map (·.account)
    queue := n.queue
    handOvers := n.handOvers
    plainSends := n.plainSends
    expiries := n.expiries }

variable (n : Node)

theorem accounts_of_find? {key : LinkKey} {l : Link} (h : n.links.find? key = some l) :
    n.stock.accounts key = some l.account := by
  show (n.links.find? key).map Link.account = _
  rw [h, Option.map_some]

/-! ## Steps that leave the stock alone -/

theorem stock_record {e : Event} (h : e.expiry? = none) : (n.record e).stock = n.stock := by
  have hx : (n.record e).expiries = n.expiries := by
    simp [expiries, record, List.filterMap_append, h]
  simp only [stock, hx]
  rfl

theorem stock_submit {r : Request} (hs : ∀ f, (Exchange.mk r f).handOver? = none)
    (hp : ∀ f, (Exchange.mk r f).plain? = none) : (n.submit r).2.stock = n.stock := by
  have hh : (n.submit r).2.handOvers = n.handOvers := by
    simp [handOvers, submit, Transport.submit, List.filterMap_append, hs]
  have hq : (n.submit r).2.plainSends = n.plainSends := by
    simp [plainSends, submit, Transport.submit, List.filterMap_append, hp]
  simp only [stock, hh, hq]
  rfl

@[simp] theorem stock_cancelTimer (id : Option TimerId) : (n.cancelTimer id).stock = n.stock := by
  cases id <;> rfl

/-- A change of the charger that keeps to its settings. -/
theorem stock_charger {c : Charger} (hs : c.sendSize = n.charger.sendSize)
    (ht : c.totalAmount = n.charger.totalAmount) : { n with charger := c }.stock = n.stock := by
  have h : { n with charger := c }.settings = n.settings := by
    simp only [settings, hs, ht]
  simp only [stock, h]
  rfl

/-- A change of the protocols that keeps to their settings. -/
theorem stock_protocols {p : Protocols} (hp : p.settings = n.protocols.settings) :
    { n with protocols := p }.stock = n.stock := by
  have h : { n with protocols := p }.settings = n.settings := by
    simp only [settings, hp]
  simp only [stock, h]
  rfl

/-- Counts of sessions are no part of the stock. -/
theorem stock_count {link : LinkKey} {f : LinkStats → LinkStats}
    (h : ∀ l : Link, Link.account { l with stats := f l.stats } = l.account) :
    (n.count link f).stock = n.stock := by
  have hacc : ∀ key, ((n.count link f).links.find? key).map Link.account =
      (n.links.find? key).map Link.account := by
    intro key
    rw [count, Links.find?_modify]
    split
    · rename_i hk
      rw [hk, Option.map_map]
      exact congrArg (Option.map · _) (funext h)
    · rfl
  simp only [stock, hacc]
  rfl

@[simp] theorem stock_forgetLink (link : LinkKey) :
    { n with routing := (n.routing.forgetLink link).2 }.stock = n.stock := rfl

/-! ## Charging -/

@[simp] theorem stock_abandonCharging (link : LinkKey) (reason : String) :
    (n.abandonCharging link reason).2.stock = n.stock := by
  unfold abandonCharging Charger.abandon
  cases n.charger.sessions.find? link with
  | none => rfl
  | some s =>
    simp only [Option.map_some]
    rw [stock_record _ rfl, stock_count _ (fun _ => rfl), stock_cancelTimer]
    exact n.stock_charger rfl rfl

@[simp] theorem stock_requestCharge (link : LinkKey) (bytes : Bytes) (now : Millis) :
    (n.requestCharge link bytes now).stock = n.stock := by
  have hs := n.stock_submit (r := .charge link bytes now) (fun _ => rfl) (fun _ => rfl)
  unfold requestCharge
  split <;> rename_i h <;> rw [h] at hs
  · exact hs
  · rw [stock_abandonCharging]
    exact hs

@[simp] theorem stock_chargeIfLow (link : LinkKey) (now : Millis) :
    (n.chargeIfLow link now).stock = n.stock := by
  unfold chargeIfLow
  split
  · rfl
  · rename_i buffer _
    obtain ⟨hs, ht⟩ := n.charger.openIfLow_settings link buffer now
    split
    · rfl
    · rename_i h
      rw [h] at hs ht
      simp only
      rw [stock_requestCharge, stock_record _ rfl]
      exact n.stock_charger hs ht

@[simp] theorem stock_levelCrossed (link : LinkKey) (crossing : Crossing) (now : Millis) :
    (n.levelCrossed link crossing now).stock = n.stock := by
  unfold levelCrossed
  simp only
  split
  · rw [stock_chargeIfLow, stock_forgetLink, stock_record _ rfl]
  · rw [stock_forgetLink, stock_record _ rfl]

@[simp] theorem stock_awaitRound (link : LinkKey) (applied current : Bytes) (now : Millis) :
    (n.awaitRound link applied current now).2.stock = n.stock := by
  have hround : ∀ (m : Node) (timer : TimerId) (c : Charger) (replaced : Option TimerId),
      m.charger.setFollowUp link timer = .ok (c, replaced) → m.stock = n.stock →
      ({ m with charger := c }.cancelTimer replaced).stock = n.stock := by
    intro m timer c replaced h hm
    obtain ⟨hs, ht⟩ := Charger.setFollowUp_settings h
    rw [stock_cancelTimer, stock_charger _ hs ht]
    exact hm
  unfold awaitRound
  cases n.charger.session? link with
  | none =>
    simp only
    split
    · rfl
    · rename_i h
      exact hround (n.schedule _ _).2 _ _ _ h rfl
  | some s =>
    have hrecord := n.stock_record (e := .chargingProgress link s.id applied current) rfl
    simp only
    split
    · exact hrecord
    · rename_i h
      exact hround ((n.record _).schedule _ _).2 _ _ _ h hrecord

@[simp] theorem stock_closeSession (link : LinkKey) (session : Session) :
    (n.closeSession link session).stock = n.stock := by
  unfold closeSession
  simp only
  rw [stock_record _ rfl, stock_count _ (fun _ => rfl), stock_cancelTimer]

@[simp] theorem stock_chargingRound (link : LinkKey) (now : Millis) :
    (n.chargingRound link now).stock = n.stock := by
  obtain ⟨hs, ht⟩ := n.charger.takeFollowUp_settings link
  unfold chargingRound
  simp only
  split
  · exact n.stock_charger hs ht
  · rw [stock_requestCharge]
    exact n.stock_charger hs ht

@[simp] theorem stock_armDeadline (p : SecuredPacket) (notBefore : Millis) :
    (n.armDeadline p notBefore).stock = n.stock := by
  unfold armDeadline
  split
  · rfl
  · simp only
    split <;> split <;> rfl

@[simp] theorem stock_disarmDeadline (packet : PacketId) :
    (n.disarmDeadline packet).stock = n.stock := by
  unfold disarmDeadline
  rw [stock_cancelTimer]
  rfl

end Node

end KeyReserve
