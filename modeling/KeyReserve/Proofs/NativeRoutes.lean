import KeyReserve.Proofs.Native
import KeyReserve.Proofs.QueueOrder

/-!
# Native routes and key material

Two nodes whose configurations say the same of routes, and that are driven alike in what bears on
native routes, are offered the same routes, with the same ties broken in the same way. However
differently they are charged, and whatever their packets cost, traffic that costs nothing goes over
the same next hops.

## Main definitions

* `Node.Forwards`: where a packet goes that costs nothing;
* `Config.RoutesLike`: configurations that differ in key material only.

## Main results

* `Node.forwards_plainHop`: such a packet goes over the first route on offer;
* `Node.native_run`: nodes that differ in key material only offer the same routes.
-/

namespace KeyReserve

namespace Node

variable {n : Node}

/-! ## Next hops -/

/-- A packet that costs nothing is handed to the transport for a next hop, or for none, and so its
outcome says unless the transport fails. -/
structure Forwards (n : Node) (packet : Packet) (now : Millis) (hop : Option NodeId) : Prop where
  handed : (n.sendBestEffort packet now).2.plainSends =
    n.plainSends ++ hop.toList.map fun h => (h, packet)
  told : ∀ outcome, (n.sendBestEffort packet now).1 = .ok outcome → outcome.nextHop? = hop

theorem plainSends_submit (n : Node) (hop : NodeId) (packet : Packet) :
    (n.submit (.plain hop packet)).2.plainSends = n.plainSends ++ [(hop, packet)] := by
  simp [plainSends, submit, Transport.submit, Exchange.plain?]

/-- The next hop of a packet that costs nothing: that of the first route on offer, while the node
runs. -/
def plainHop (n : Node) (packet : Packet) (now : Millis) : Option NodeId :=
  if n.phase = .running then (n.offered packet.destination now).head?.map (·.nextHop) else none

theorem forwards_plainHop (h : n.Configured) (hleast : n.config.routing.bestEffortMin = 0)
    (packet : Packet) (now : Millis) : n.Forwards packet now (n.plainHop packet now) := by
  by_cases hrun : n.phase = .running
  · obtain ⟨cs, p, hcs⟩ := Protocols.candidates_ok h.installed packet.destination now
    have hhop : n.plainHop packet now = cs.head?.map (·.nextHop) := by
      simp only [plainHop, hrun, if_true, offered, hcs]
    have hsend := n.sendBestEffort_of_candidates hrun hcs rfl
    rw [find?_viable h hleast] at hsend
    rw [hhop]
    cases cs with
    | nil =>
      constructor
      · rw [hsend]
        have hstock := stock_requestRoute { n with
          protocols := p
          routing := n.routing.checkAll .bestEffort n.links.buffer? now [] } packet.destination now
        exact (congrArg Stock.plainSends hstock).trans (List.append_nil _).symm
      · intro outcome ho
        rw [hsend] at ho
        cases ho
        rfl
    | cons c cs =>
      have hsubmit := plainSends_submit { n with
        protocols := p
        routing := n.routing.checkAll .bestEffort n.links.buffer? now (c :: cs) } c.nextHop packet
      simp only [List.head?_cons] at hsend
      constructor
      · rw [hsend]
        split <;> rename_i hm <;> rw [hm] at hsubmit <;> exact hsubmit
      · intro outcome ho
        rw [hsend] at ho
        split at ho <;> cases ho
        rfl
  · have hhop : n.plainHop packet now = none := if_neg hrun
    rw [hhop]
    constructor
    · rw [n.sendBestEffort_of_refused (.inl hrun)]
      exact (List.append_nil _).symm
    · intro outcome ho
      simp only [sendBestEffort, if_pos hrun] at ho
      cases ho

end Node

/-! ## Nodes that differ in key material -/

/-- Configurations that say the same of routes. They may differ in the bounds of buffers, as long as
both are in order or neither is, in the cost of packets, in charging, in bounds on the age of
packets, and in the level that secured traffic needs. -/
structure Config.RoutesLike (c d : Config) : Prop where
  id : c.node.id = d.node.id
  peers : c.peers = d.peers
  protocol : c.routing.protocol = d.routing.protocol
  seed : c.routing.seed = d.routing.seed
  firstStream : c.routing.firstStream = d.routing.firstStream
  routeLifetime : c.routing.routeLifetime = d.routing.routeLifetime
  maxRequestJitter : c.routing.maxRequestJitter = d.routing.maxRequestJitter

namespace Node

theorem id_of_create {config : Config} {t : Transport} (h : create config t = .ok n) :
    config.node.id = some n.id := by
  simp only [create, Config.check, Config.nodeId] at h
  cases hid : config.node.id with
  | none =>
    rw [hid] at h
    cases h
  | some id =>
    simp only [hid] at h
    split at h
    · cases h
    · rename_i own hown
      split at hown <;> cases hown
      cases h
      rfl

theorem ofConfig_eq {m : Node} {c d : Config} {t u : Transport} (hlike : c.RoutesLike d)
    (hn : create c t = .ok n) (hm : create d u = .ok m) :
    Native.ofConfig n.id c = .ofConfig m.id d := by
  have hid : n.id = m.id :=
    Option.some.inj ((id_of_create hn).symm.trans (hlike.id.trans (id_of_create hm)))
  simp only [Native.ofConfig, protocolsFor, hid, hlike.peers, hlike.protocol, hlike.seed,
    hlike.firstStream, hlike.routeLifetime, hlike.maxRequestJitter]

/-- Two nodes whose configurations say the same of routes have been driven alike in what bears on
native routes; in between, key material has been delivered to them or not, packets have been paid
for or not, transports have taken what they were handed or not, in any way for either. Both are then
offered the same routes for every destination, in the same order and with the same draws, and a
packet that costs nothing goes over the same next hop. -/
theorem native_run {c d : Config} {t u : Transport} {n m : Node} (hn : create c t = .ok n)
    (hm : create d u = .ok m) (hlike : c.RoutesLike d) (hc : c.routing.bestEffortMin = 0)
    (hd : d.routing.bestEffortMin = 0) {cs ds : List Call}
    (hinputs : cs.filterMap Call.input? = ds.filterMap Call.input?) :
    (n.run cs).phase = (m.run ds).phase ∧
      (∀ destination now,
        (n.run cs).protocols.candidates (n.run cs).role destination now =
          (m.run ds).protocols.candidates (m.run ds).role destination now) ∧
      ∀ packet now, ∃ hop, (n.run cs).Forwards packet now hop ∧
        (m.run ds).Forwards packet now hop := by
  have hsn := sound_create hn
  have hsm := sound_create hm
  have hconfig : n.config = c := congrArg Settings.config (settings_create hn)
  have hconfig' : m.config = d := congrArg Settings.config (settings_create hm)
  have hshows := shows_run (shows_create hn) hsn (hconfig ▸ hc) cs
  have hshows' := shows_run (shows_create hm) hsm (hconfig' ▸ hd) ds
  rw [← hinputs, ← ofConfig_eq hlike hn hm] at hshows'
  have hphase : (n.run cs).phase = (m.run ds).phase := hshows.phase.symm.trans hshows'.phase
  have hcandidates : ∀ destination now,
      (n.run cs).protocols.candidates (n.run cs).role destination now =
        (m.run ds).protocols.candidates (m.run ds).role destination now :=
    fun destination now =>
      (hshows.candidates destination now).symm.trans (hshows'.candidates destination now)
  have hleast : (n.run cs).config.routing.bestEffortMin = 0 := by
    rw [show (n.run cs).config = n.config from congrArg Settings.config (hsn.settings_run cs),
      hconfig, hc]
  have hleast' : (m.run ds).config.routing.bestEffortMin = 0 := by
    rw [show (m.run ds).config = m.config from congrArg Settings.config (hsm.settings_run ds),
      hconfig', hd]
  refine ⟨hphase, hcandidates, fun packet now => ⟨(n.run cs).plainHop packet now, ?_, ?_⟩⟩
  · exact forwards_plainHop (hsn.run cs).configured hleast packet now
  · have hhop : (n.run cs).plainHop packet now = (m.run ds).plainHop packet now := by
      simp only [plainHop, offered, hphase, hcandidates]
    rw [hhop]
    exact forwards_plainHop (hsm.run ds).configured hleast' packet now

end Node

/-- A node with one link, whose protocol learns its routes on demand. -/
def Config.sparse : Config :=
  { Config.pair with
    routing := { RoutingSettings.standard with protocol := .reactive, securedMin := 10 } }

/-- A node with more key material, on which packets cost more. -/
def Config.ample : Config :=
  { Config.sparse with
    cost := { Tariff.standard with otpBytesPerByte := 3 }
    charging := { ChargingSettings.standard with sendSize := 7 }
    links := [⟨⟨2⟩, some ⟨0, 50, 500, 400⟩⟩] }

/-- A route is asked for and replied to, the link is charged, and a packet is sent. -/
def Call.sparseRun : List Call :=
  [.start 0, .sendBestEffort ⟨⟨6⟩, ⟨9⟩, 5⟩ 1, .routeReply ⟨2⟩ ⟨9⟩ 2 1 5, .chargeDelivered ⟨2⟩ 65 6,
    .sendSecured ⟨⟨7⟩, ⟨9⟩, 5⟩ none 100]

/-- The same without charging, and with another call once the packet waits. -/
def Call.ampleRun : List Call :=
  [.start 0, .sendBestEffort ⟨⟨6⟩, ⟨9⟩, 5⟩ 1, .routeReply ⟨2⟩ ⟨9⟩ 2 1 5,
    .sendSecured ⟨⟨7⟩, ⟨9⟩, 5⟩ none 100, .linkReady ⟨2⟩ 101]

namespace Node

/-- The two nodes have different levels at the end, and the same routes. -/
theorem native_run_pair : ∃ n m, create .sparse .accepting = .ok n ∧
    create .ample .hesitant = .ok m ∧
    Call.sparseRun.filterMap Call.input? = Call.ampleRun.filterMap Call.input? ∧
    ((n.run Call.sparseRun).links.buffer? (.join ⟨1⟩ ⟨2⟩)).map (·.current) = some 58 ∧
    ((m.run Call.ampleRun).links.buffer? (.join ⟨1⟩ ⟨2⟩)).map (·.current) = some 353 ∧
    ((n.run Call.sparseRun).offered ⟨9⟩ 110).map (·.nextHop) = [⟨2⟩] ∧
    (∀ destination now,
      (n.run Call.sparseRun).protocols.candidates (n.run Call.sparseRun).role destination now =
        (m.run Call.ampleRun).protocols.candidates (m.run Call.ampleRun).role destination now) ∧
    ∀ packet now, ∃ hop, (n.run Call.sparseRun).Forwards packet now hop ∧
      (m.run Call.ampleRun).Forwards packet now hop := by
  have hlike : Config.sparse.RoutesLike .ample :=
    ⟨rfl, by decide, rfl, rfl, rfl, rfl, rfl⟩
  have hinputs : Call.sparseRun.filterMap Call.input? = Call.ampleRun.filterMap Call.input? := by
    decide
  obtain ⟨n, hn, hlevel, hoffered⟩ : ∃ n, create .sparse .accepting = .ok n ∧
      ((n.run Call.sparseRun).links.buffer? (.join ⟨1⟩ ⟨2⟩)).map (·.current) = some 58 ∧
      ((n.run Call.sparseRun).offered ⟨9⟩ 110).map (·.nextHop) = [⟨2⟩] :=
    ⟨_, rfl, by decide +kernel, by decide +kernel⟩
  obtain ⟨m, hm, hlevel'⟩ : ∃ m, create .ample .hesitant = .ok m ∧
      ((m.run Call.ampleRun).links.buffer? (.join ⟨1⟩ ⟨2⟩)).map (·.current) = some 353 :=
    ⟨_, rfl, by decide +kernel⟩
  obtain ⟨-, hcandidates, hhops⟩ := native_run hn hm hlike rfl rfl hinputs
  exact ⟨n, m, hn, hm, hinputs, hlevel, hlevel', hoffered, hcandidates, hhops⟩

end Node

end KeyReserve
