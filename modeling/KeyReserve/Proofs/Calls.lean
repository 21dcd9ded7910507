import KeyReserve.Node.Timers
import KeyReserve.Proofs.Outcome

/-!
# Calls

A node is driven from outside by calls. They are collected in one type, so that a run is a list of
calls. Whoever drives the node also owns its timers, and may do with the agenda as it likes.

The calls that bring no link up and take none down move packets and key material only, and what
they move is a flow.

## Main definitions

* `Call`, `Node.apply`, `Node.run`: a call, what it does, and what calls in a row do;
* `Node.Reachable`: the nodes that calls lead to from a new one;
* `Node.paid`: the packets that a call pays for.

## Main results

* `Node.flow_chargeDelivered`: a delivery moves no packet, and the link counts what has fitted in;
* `Node.flow_apply`: the flow of a call.
-/

namespace KeyReserve

/-- A call from outside. -/
inductive Call where
  | start (now : Millis)
  | establish (peer : NodeId) (bounds : Bounds) (now : Millis)
  | teardown (peer : NodeId)
  | shutdown
  | tick (now : Millis)
  | timer (timer : Timer) (now : Millis)
  | sendSecured (packet : Packet) (maxDelay : Option Millis) (now : Millis)
  | sendBestEffort (packet : Packet) (now : Millis)
  | linkReady (nextHop : NodeId) (now : Millis)
  | chargeDelivered (peer : NodeId) (bytes : Bytes) (now : Millis)
  | chargeFailed (peer : NodeId) (reason : String)
  | advertisement (sender destination : NodeId) (hops : UInt8) (seq : UInt32) (now : Millis)
  | routeReply (nextHop destination : NodeId) (hops : UInt8) (seq : UInt32) (now : Millis)
  | drainEvents
  /-- Timers are taken off the agenda, or put on it. -/
  | rearrange (agenda : Agenda Timer)

/-- Whether the call leaves links up or down as they are, and leaves the record to be read. -/
def Call.flows : Call → Bool
  | .start _ => false
  | .establish .. => false
  | .teardown _ => false
  | .shutdown => false
  | .drainEvents => false
  | _ => true

namespace Node

/-- The node after a call. -/
def apply (n : Node) : Call → Node
  | .start now => (n.start now).2
  | .establish peer bounds now => (n.establish peer bounds now).2
  | .teardown peer => (n.teardown peer).2
  | .shutdown => n.shutdown
  | .tick now => n.tick now
  | .timer timer now => n.onTimer timer now
  | .sendSecured packet maxDelay now => (n.sendSecured packet maxDelay now).2
  | .sendBestEffort packet now => (n.sendBestEffort packet now).2
  | .linkReady nextHop now => (n.linkReady nextHop now).2
  | .chargeDelivered peer bytes now => (n.chargeDelivered peer bytes now).2
  | .chargeFailed peer reason => (n.chargeFailed peer reason).2
  | .advertisement sender destination hops seq now =>
    (n.onAdvertisement sender destination hops seq now).2
  | .routeReply nextHop destination hops seq now =>
    (n.onRouteReply nextHop destination hops seq now).2
  | .drainEvents => n.drainEvents.2
  | .rearrange agenda => { n with agenda }

/-- The node after some calls in a row. -/
def run (n : Node) (calls : List Call) : Node := calls.foldl apply n

/-- The nodes that calls lead to from one that a configuration makes. -/
inductive Reachable : Node → Prop where
  | created {config : Config} {t : Transport} {n : Node} (h : create config t = .ok n) : Reachable n
  | called {n : Node} (h : Reachable n) (c : Call) : Reachable (n.apply c)

/-- The packets that a call pays for: a call to send pays for one at most. -/
def paid (n : Node) : Call → List SecuredPacket
  | .sendSecured packet maxDelay now => (n.paidFor packet maxDelay now).toList
  | _ => []

/-- The packets that are paid for in the course of some calls, in order. -/
def paidIn (n : Node) : List Call → List SecuredPacket
  | [] => []
  | c :: cs => n.paid c ++ (n.apply c).paidIn cs

variable (n : Node)

theorem run_append (cs ds : List Call) : n.run (cs ++ ds) = (n.run cs).run ds :=
  List.foldl_append

theorem run_concat (cs : List Call) (c : Call) : n.run (cs ++ [c]) = (n.run cs).apply c :=
  n.run_append cs [c]

theorem paidIn_append (cs ds : List Call) :
    n.paidIn (cs ++ ds) = n.paidIn cs ++ (n.run cs).paidIn ds := by
  induction cs generalizing n with
  | nil => rfl
  | cons c cs ih =>
    show n.paid c ++ (n.apply c).paidIn (cs ++ ds) = n.paid c ++ (n.apply c).paidIn cs ++ _
    rw [ih, List.append_assoc]
    rfl

theorem Reachable.run {n : Node} (h : n.Reachable) (cs : List Call) : (n.run cs).Reachable := by
  induction cs generalizing n with
  | nil => exact h
  | cons c cs ih => exact ih (h.called c)

/-! ## Charging and housekeeping -/

theorem stock_tick (now : Millis) : (n.tick now).stock = n.stock := by
  have hcharged : (n.links.keys.foldl (fun n key => n.chargeIfLow key now) n).stock = n.stock :=
    List.foldlRecOn (motive := fun m : Node => m.stock = n.stock) n.links.keys _ rfl
      fun m hm k _ => (m.stock_chargeIfLow k now).trans hm
  unfold tick
  generalize n.links.keys.foldl (fun n key => n.chargeIfLow key now) n = m at *
  obtain ⟨epoch, epochStart, appraisals, hk⟩ := m.routing.maybeNewEpoch_settings now
  simp only [hk]
  exact (m.stock_protocols (m.protocols.purge_settings now)).trans hcharged

theorem stock_scheduleTick (now : Millis) : (n.scheduleTick now).stock = n.stock := by
  unfold scheduleTick
  simp only
  split <;> rfl

theorem stock_onTimer_tick (now : Millis) : (n.onTimer .tick now).stock = n.stock := by
  unfold onTimer
  simp only
  split
  · rw [stock_scheduleTick, stock_tick]
    rfl
  · rfl

theorem stock_onAdvertisement (sender destination : NodeId) (hops : UInt8) (seq : UInt32)
    (now : Millis) : (n.onAdvertisement sender destination hops seq now).2.stock = n.stock := by
  unfold onAdvertisement
  split
  · rfl
  · rename_i t ht
    refine n.stock_protocols ?_
    have h := n.protocols.learn_settings
      (f := fun t => (t.learn ⟨destination, sender⟩ hops.succSat seq now).2)
      fun t => t.learn_settings _ _ _ _
    rw [ht, Option.map_some] at h
    exact h

theorem stock_onRouteReply (nextHop destination : NodeId) (hops : UInt8) (seq : UInt32)
    (now : Millis) : (n.onRouteReply nextHop destination hops seq now).2.stock = n.stock := by
  unfold onRouteReply
  split
  · rfl
  · rename_i t ht
    obtain ⟨h1, h2, h3⟩ := t.onRouteReply_settings nextHop destination hops seq now
    refine n.stock_protocols ?_
    simp only [Protocols.settings, ht, Option.map_some, h1, h2, h3]

theorem stock_submit_plain (hop : NodeId) (packet : Packet) :
    ∃ sends, (n.submit (.plain hop packet)).2.stock = { n.stock with plainSends := sends } := by
  have hh : (n.submit (.plain hop packet)).2.handOvers = n.handOvers := by
    simp [handOvers, submit, Transport.submit, List.filterMap_append, Exchange.handOver?]
  refine ⟨(n.submit (.plain hop packet)).2.plainSends, ?_⟩
  simp only [stock, hh]
  rfl

/-- Traffic that costs nothing moves no secured packet. -/
theorem flow_sendBestEffort (packet : Packet) (now : Millis) :
    Flow n.stock (n.sendBestEffort packet now).2.stock [] [] [] := by
  unfold sendBestEffort
  split
  · exact .refl _
  · split
    · exact .refl _
    · rename_i cs q hcs
      obtain ⟨appraisals, hrank⟩ := n.routing.appraiseAll_settings .bestEffort n.links now cs
      have hq := n.stock_protocols (Protocols.candidates_settings hcs)
      have hstock : { n with
          protocols := q
          routing := (n.routing.rank cs .bestEffort n.links now).2 }.stock = n.stock := by
        show { n with
          protocols := q
          routing := (n.routing.appraiseAll .bestEffort n.links now cs).2 }.stock = n.stock
        rw [hrank]
        exact hq
      simp only
      split
      · refine .of_eq ?_
        rw [stock_requestRoute]
        exact hstock
      · rename_i best _
        obtain ⟨sends, hs⟩ := stock_submit_plain { n with
          protocols := q
          routing := (n.routing.rank cs .bestEffort n.links now).2 } best.candidate.nextHop packet
        rw [hstock] at hs
        split <;> rename_i hm <;> rw [hm] at hs <;> simp only <;> rw [hs]
        · exact .plain n.stock sends
        · exact .plain n.stock sends

/-- The node after a delivery that its charger has taken in, before the session goes on or ends. -/
def credited (link : LinkKey) (l : Link) (c : Charger) (b : KeyBuffer) (d : Delivery)
    (now : Millis) : Node :=
  let n := { n with
    charger := c
    links := n.links.insert link { l with buffer := b, stats := l.stats.charged d.applied } }
  match d.crossing with
  | some crossing => n.levelCrossed link crossing now
  | none => n

theorem chargeDelivered_of_receive {peer : NodeId} {bytes : Bytes} {l : Link} {c : Charger}
    {b : KeyBuffer} {d : Delivery} (hl : n.links.find? (n.linkTo peer) = some l)
    (hr : n.charger.receive (n.linkTo peer) l.buffer bytes = .ok (c, b, d)) (now : Millis) :
    (n.chargeDelivered peer bytes now).2 =
      match d.progress with
      | .goesOn _ =>
        ((n.credited (n.linkTo peer) l c b d now).awaitRound (n.linkTo peer) d.applied b.current
          now).2
      | .completed s => (n.credited (n.linkTo peer) l c b d now).closeSession (n.linkTo peer) s := by
  unfold chargeDelivered credited
  simp only [hl, hr]
  cases d.progress <;> rfl

/-- A delivery is refused where the link is down or has no session, and changes nothing then; any
other is taken in by the charger. -/
theorem chargeDelivered_cases (peer : NodeId) (bytes : Bytes) (now : Millis) :
    (n.chargeDelivered peer bytes now).2 = n ∧
        (n.links.find? (n.linkTo peer) = none ∨ n.charger.session? (n.linkTo peer) = none) ∨
      ∃ l c b d, n.links.find? (n.linkTo peer) = some l ∧
        n.charger.receive (n.linkTo peer) l.buffer bytes = .ok (c, b, d) := by
  cases hl : n.links.find? (n.linkTo peer) with
  | none =>
    unfold chargeDelivered
    simp only [hl]
    exact .inl ⟨trivial, .inl trivial⟩
  | some l =>
    cases hr : n.charger.receive (n.linkTo peer) l.buffer bytes with
    | error e =>
      have hs : n.charger.session? (n.linkTo peer) = none := by
        unfold Charger.receive at hr
        split at hr
        · assumption
        · simp only at hr
          split at hr <;> cases hr
      unfold chargeDelivered
      simp only [hl, hr]
      exact .inl ⟨trivial, .inr hs⟩
    | ok answer => exact .inr ⟨l, answer.1, answer.2.1, answer.2.2, rfl, hr⟩

/-- What follows a delivery, in charging or in routing, leaves the stock alone. -/
theorem stock_chargeDelivered {peer : NodeId} {bytes : Bytes} {l : Link} {c : Charger}
    {b : KeyBuffer} {d : Delivery} (hl : n.links.find? (n.linkTo peer) = some l)
    (hr : n.charger.receive (n.linkTo peer) l.buffer bytes = .ok (c, b, d)) (now : Millis) :
    (n.chargeDelivered peer bytes now).2.stock =
      { n with
        charger := c
        links := n.links.insert (n.linkTo peer)
          { l with buffer := b, stats := l.stats.charged d.applied } }.stock := by
  have hcredited : (n.credited (n.linkTo peer) l c b d now).stock = { n with
      charger := c
      links := n.links.insert (n.linkTo peer)
        { l with buffer := b, stats := l.stats.charged d.applied } }.stock := by
    unfold credited
    cases d.crossing with
    | none => rfl
    | some x => exact stock_levelCrossed _ _ _ _
  rw [n.chargeDelivered_of_receive hl hr, ← hcredited]
  cases d.progress with
  | goesOn _ => exact stock_awaitRound _ _ _ _ _
  | completed s => exact stock_closeSession _ _ _

/-- A delivery moves no packet, and the link counts what has fitted into its buffer. -/
theorem flow_chargeDelivered (peer : NodeId) (bytes : Bytes) (now : Millis) :
    Flow n.stock (n.chargeDelivered peer bytes now).2.stock [] [] [] := by
  rcases n.chargeDelivered_cases peer bytes now with ⟨hsame, -⟩ | ⟨l, c, b, d, hl, hr⟩
  · rw [hsame]
    exact .refl _
  · rw [n.stock_chargeDelivered hl hr]
    obtain ⟨hs, ht⟩ := Charger.receive_settings hr
    obtain ⟨rfl, happlied⟩ := Charger.receive_credit hr
    rw [happlied]
    exact (Flow.account (n.accounts_of_find? hl) (l.account.booked_charged bytes)).trans_eq
      ((stock_insert { n with charger := c } (n.linkTo peer) _).trans
        (congrArg (Stock.withAccount · _ _) (n.stock_charger hs ht)))

/-- What a call moves, where it leaves links up or down as they are. -/
theorem flow_apply (hconf : n.Configured) (ho : n.stock.Orderly) {c : Call} (hc : c.flows = true) :
    ∃ expired handed, Flow n.stock (n.apply c).stock (n.paid c) expired handed := by
  have htried : ∀ {now : Millis} {t : Stock}, Relation.ReflTransGen (Stock.Tried now) n.stock t →
      ∃ expired handed, Flow n.stock t [] expired handed := fun h =>
    let ⟨expired, handed, _, hr⟩ := Stock.exists_released h
    ⟨expired, handed, hr.flow⟩
  cases c with
  | start now => cases hc
  | establish peer bounds now => cases hc
  | teardown peer => cases hc
  | shutdown => cases hc
  | drainEvents => cases hc
  | tick now => exact ⟨[], [], .of_eq (n.stock_tick now)⟩
  | timer timer now =>
    cases timer with
    | chargingRound link => exact ⟨[], [], .of_eq (n.stock_chargingRound link now)⟩
    | deadline link packet => exact htried (n.tries_expireWaiting ho link packet now)
    | tick => exact ⟨[], [], .of_eq (n.stock_onTimer_tick now)⟩
  | sendSecured packet maxDelay now =>
    obtain ⟨handed, hf⟩ := flow_sendSecured hconf packet maxDelay now
    exact ⟨[], handed, hf⟩
  | sendBestEffort packet now => exact ⟨[], [], n.flow_sendBestEffort packet now⟩
  | linkReady nextHop now => exact htried (n.tries_linkReady ho nextHop now)
  | chargeDelivered peer bytes now => exact ⟨[], [], n.flow_chargeDelivered peer bytes now⟩
  | chargeFailed peer reason => exact ⟨[], [], .of_eq (n.stock_abandonCharging _ reason)⟩
  | advertisement sender destination hops seq now =>
    exact ⟨[], [], .of_eq (n.stock_onAdvertisement sender destination hops seq now)⟩
  | routeReply nextHop destination hops seq now =>
    exact ⟨[], [], .of_eq (n.stock_onRouteReply nextHop destination hops seq now)⟩
  | rearrange agenda => exact ⟨[], [], .refl _⟩

end Node

end KeyReserve
