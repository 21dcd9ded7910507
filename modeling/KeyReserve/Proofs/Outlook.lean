import KeyReserve.Proofs.SupplyCalls
import Mathlib.Logic.Function.Basic

/-!
# The outlook of a node

A node goes by its outlook when it chooses a route: the buffers of its links, the routes that its
protocols know, and what it has recorded of its checks. Sessions, timers, waiting packets, the
record of events and the transport are no part of it, so that the steps which only deal with those
leave the outlook as it is.

## Main definitions

* `Outlook`, `Node.outlook`;
* `Outlook.relevel`: a buffer has another level, and a crossing of its threshold drops the checks of
  the routes over its link.

## Main results

* `Node.outlook_chargeDelivered`, `Node.outlook_sendPaid`: a delivery and a payment relevel one
  buffer;
* `Node.outlook_tick`, `Node.outlook_bringUp`, `Node.outlook_teardown`: housekeeping, and links that
  come up or go down.
-/

namespace KeyReserve

/-- The protocols after a route has been asked for. -/
def Protocols.requested (p : Protocols) (role : Role) (destination : NodeId) (now : Millis) :
    Protocols :=
  match p.request role destination now with
  | .error _ => p
  | .ok (_, p) => p

/-- The protocols after an advertisement, which only a proactive one takes in. -/
def Protocols.advertised (p : Protocols) (sender destination : NodeId) (hops : UInt8)
    (seq : UInt32) (now : Millis) : Protocols :=
  match p.proactive with
  | none => p
  | some t => { p with proactive := some (t.onAdvertisement sender destination hops seq now).2 }

/-- The protocols after a route reply, which only a reactive one takes in. -/
def Protocols.replied (p : Protocols) (nextHop destination : NodeId) (hops : UInt8)
    (seq : UInt32) (now : Millis) : Protocols :=
  match p.reactive with
  | none => p
  | some t => { p with reactive := some (t.onRouteReply nextHop destination hops seq now).2 }

namespace KeyAware

/-- What is recorded once the routes of some candidates have been checked in their order. -/
def checkAll (k : KeyAware) (c : TrafficClass) (buffers : LinkKey → Option KeyBuffer)
    (now : Millis) (cs : List Candidate) : KeyAware :=
  { k with
    appraisals := cs.foldl
      (fun found x => found.insert (x.route, c)
        (.evaluate x.route c (buffers (x.route.link k.home)) (k.least c) now k.epoch))
      k.appraisals }

theorem appraiseAll_checkAll (k : KeyAware) (c : TrafficClass) (links : Links) (now : Millis)
    (cs : List Candidate) :
    (k.appraiseAll c links now cs).2 = k.checkAll c links.buffer? now cs := by
  induction cs generalizing k with
  | nil => rfl
  | cons x xs ih =>
    refine (ih _).trans ?_
    cases c <;> rfl

/-- A selection changes nothing but what is recorded of the checks, and the mark of the
destination. -/
theorem exists_select (k : KeyAware) (destination : NodeId) {cs : List Candidate} (hne : cs ≠ [])
    (links : Links) (now : Millis) : ∃ unreachable, (k.select destination cs links now).2 =
      { k.checkAll .secured links.buffer? now cs with unreachable } := by
  have hnot : cs.isEmpty = false := by
    rw [List.isEmpty_eq_false_iff]
    exact hne
  have hrank : (k.rank cs .secured links now).2 = k.checkAll .secured links.buffer? now cs :=
    k.appraiseAll_checkAll .secured links now cs
  simp only [select, hnot, Bool.false_eq_true, if_false, hrank]
  split
  · exact ⟨_, rfl⟩
  · exact ⟨_, rfl⟩

/-- The first viable candidate of a ranking is the first viable one in native order. -/
theorem find?_rank (k : KeyAware) (cs : List Candidate) (c : TrafficClass) (links : Links)
    (now : Millis) :
    (k.rank cs c links now).1.find? (·.appraisal.viable) =
      (cs.map fun x => (⟨x, k.evaluate x.route c links now⟩ : RankedRoute)).find?
        (·.appraisal.viable) := by
  have hothers : ∀ rs : List RankedRoute,
      (rs.filter (!·.appraisal.viable)).find? (·.appraisal.viable) = none := by
    simp
  rw [rank_eq, List.find?_append, hothers, Option.or_none, List.find?_filter]
  simp only [and_self, Bool.decide_eq_true]

end KeyAware

/-- What a node goes by when it chooses a route. -/
structure Outlook where
  id : NodeId
  config : Config
  phase : Phase
  /-- The buffers of the links that are up. -/
  buffers : LinkKey → Option KeyBuffer
  protocols : Protocols
  routing : KeyAware

namespace Outlook

/-- Another buffer on a link, or none once it is down. -/
def withBuffer (o : Outlook) (key : LinkKey) (b : Option KeyBuffer) : Outlook :=
  { o with buffers := Function.update o.buffers key b }

/-- The checks of the routes over a link are dropped. -/
def forgetLink (o : Outlook) (key : LinkKey) : Outlook :=
  { o with routing := (o.routing.forgetLink key).2 }

/-- A buffer has another level. If that is on the other side of its threshold, the checks of the
routes over its link are dropped. -/
def relevel (o : Outlook) (key : LinkKey) (before after : KeyBuffer) : Outlook :=
  match after.crossingFrom before.level with
  | none => o.withBuffer key (some after)
  | some _ => (o.withBuffer key (some after)).forgetLink key

/-- The link to a peer comes up, where it joins two nodes and is down and the bounds of its buffer
are in order, and a proactive protocol learns of it. -/
def bringUp (o : Outlook) (peer : NodeId) (bounds : Bounds) (now : Millis) : Outlook :=
  match (LinkKey.join o.id peer).isLoop, o.buffers (.join o.id peer), KeyBuffer.ofBounds bounds with
  | false, none, .ok b =>
    { o.withBuffer (.join o.id peer) (some b) with
      protocols := { o.protocols with
        proactive := o.protocols.proactive.map fun t => (t.addNeighbor peer 0 now).2 } }
  | _, _, _ => o

/-- The link to a peer goes down with the checks of the routes over it and those routes. -/
def teardown (o : Outlook) (peer : NodeId) : Outlook :=
  { (o.withBuffer (.join o.id peer) none).forgetLink (.join o.id peer) with
    protocols := (o.protocols.removeNextHop peer).2 }

/-- Expired routes are dropped, and all checks once their epoch is over. -/
def tick (o : Outlook) (now : Millis) : Outlook :=
  { o with
    protocols := (o.protocols.purge now).2
    routing := (o.routing.maybeNewEpoch now).2 }

/-- Several links come up, one after the other. -/
def bringUpAll (o : Outlook) (now : Millis) (ls : List LinkSettings) : Outlook :=
  ls.foldl (fun o l => o.bringUp l.peer (l.boundsOr o.config.buffer) now) o

/-- The links under some keys go down, one after the other. -/
def teardownAll (o : Outlook) (keys : List LinkKey) : Outlook :=
  keys.foldl
    (fun o key =>
      match key.other o.id with
      | some peer => o.teardown peer
      | none => o)
    o

/-- What a secured packet can do to the outlook. -/
inductive Sends (o : Outlook) (destination : NodeId) (now : Millis) : Outlook → Prop
  /-- The node does not run, or has no protocol of its role. -/
  | refused (h : o.phase ≠ .running ∨
      ∃ e, o.protocols.candidates o.config.routing.protocol destination now = .error e) :
      Sends o destination now o
  /-- There is no route, and one is asked for. -/
  | unrouted {p : Protocols} (hrun : o.phase = .running)
      (hcs : o.protocols.candidates o.config.routing.protocol destination now = .ok ([], p)) :
      Sends o destination now
        { o with protocols := p.requested o.config.routing.protocol destination now }
  /-- The routes have been checked, and the packet goes over none of them. -/
  | checked {cs : List Candidate} {p : Protocols} (hrun : o.phase = .running)
      (hcs : o.protocols.candidates o.config.routing.protocol destination now = .ok (cs, p))
      (hne : cs ≠ []) (unreachable : Table NodeId Unit) :
      Sends o destination now
        { o with
          protocols := p
          routing := { o.routing.checkAll .secured o.buffers now cs with unreachable } }
  /-- The routes have been checked, and the packet has been paid for on one of them. -/
  | paid {cs : List Candidate} {p : Protocols} (hrun : o.phase = .running)
      (hcs : o.protocols.candidates o.config.routing.protocol destination now = .ok (cs, p))
      (hne : cs ≠ []) (unreachable : Table NodeId Unit) {key : LinkKey} {b b' : KeyBuffer}
      {amount : Bytes} {crossing : Option Crossing} (hb : o.buffers key = some b)
      (hd : b.debit amount = .ok (b', crossing)) :
      Sends o destination now
        (relevel
          { o with
            protocols := p
            routing := { o.routing.checkAll .secured o.buffers now cs with unreachable } }
          key b b')

end Outlook

namespace Node

def outlook (n : Node) : Outlook :=
  { id := n.id
    config := n.config
    phase := n.phase
    buffers := n.links.buffer?
    protocols := n.protocols
    routing := n.routing }

variable (n : Node)

theorem outlook_insert (key : LinkKey) (l : Link) :
    { n with links := n.links.insert key l }.outlook =
      n.outlook.withBuffer key (some l.buffer) := by
  have h : Links.buffer? (n.links.insert key l) =
      Function.update n.links.buffer? key (some l.buffer) := by
    funext k
    rw [Links.buffer?_insert, Function.update_apply]
  simp only [outlook, Outlook.withBuffer, h]

theorem outlook_eraseLink (key : LinkKey) :
    { n with links := n.links.erase key }.outlook = n.outlook.withBuffer key none := by
  have h : Links.buffer? (n.links.erase key) = Function.update n.links.buffer? key none := by
    funext k
    rw [Links.buffer?, Table.find?_erase, Function.update_apply]
    split <;> rfl
  simp only [outlook, Outlook.withBuffer, h]

/-! ## Steps that leave the outlook alone -/

@[simp] theorem outlook_cancelTimer (id : Option TimerId) :
    (n.cancelTimer id).outlook = n.outlook := by
  cases id <;> rfl

/-- What a link counts is no part of the outlook. -/
@[simp] theorem outlook_count (link : LinkKey) (f : LinkStats → LinkStats) :
    (n.count link f).outlook = n.outlook := by
  have h : (n.count link f).links.buffer? = n.links.buffer? :=
    funext fun key => congrArg Supply.buffer (n.supply_count key link f)
  simp only [outlook, h]
  rfl

@[simp] theorem outlook_abandonCharging (link : LinkKey) (reason : String) :
    (n.abandonCharging link reason).2.outlook = n.outlook := by
  simp only [abandonCharging]
  split
  · rfl
  · exact (outlook_count _ _ _).trans (outlook_cancelTimer _ _)

@[simp] theorem outlook_requestCharge (link : LinkKey) (bytes : Bytes) (now : Millis) :
    (n.requestCharge link bytes now).outlook = n.outlook := by
  have hsubmit : (n.submit (.charge link bytes now)).2.outlook = n.outlook := rfl
  simp only [requestCharge]
  split <;> rename_i hm <;> rw [hm] at hsubmit
  · exact hsubmit
  · exact (outlook_abandonCharging _ _ _).trans hsubmit

@[simp] theorem outlook_chargeIfLow (link : LinkKey) (now : Millis) :
    (n.chargeIfLow link now).outlook = n.outlook := by
  simp only [chargeIfLow]
  split
  · rfl
  · split
    · rfl
    · exact outlook_requestCharge _ _ _ _

@[simp] theorem outlook_awaitRound (link : LinkKey) (applied current : Bytes) (now : Millis) :
    (n.awaitRound link applied current now).2.outlook = n.outlook := by
  simp only [awaitRound]
  cases n.charger.session? link <;> simp only <;> split
  · rfl
  · exact outlook_cancelTimer _ _
  · rfl
  · exact outlook_cancelTimer _ _

@[simp] theorem outlook_closeSession (link : LinkKey) (session : Session) :
    (n.closeSession link session).outlook = n.outlook :=
  (outlook_count _ _ _).trans (outlook_cancelTimer _ _)

@[simp] theorem outlook_chargingRound (link : LinkKey) (now : Millis) :
    (n.chargingRound link now).outlook = n.outlook := by
  simp only [chargingRound]
  split
  · rfl
  · exact outlook_requestCharge _ _ _ _

@[simp] theorem outlook_armDeadline (p : SecuredPacket) (notBefore : Millis) :
    (n.armDeadline p notBefore).outlook = n.outlook := by
  simp only [armDeadline]
  split
  · rfl
  · split <;> split <;> rfl

@[simp] theorem outlook_disarmDeadline (packet : PacketId) :
    (n.disarmDeadline packet).outlook = n.outlook :=
  outlook_cancelTimer _ _

@[simp] theorem outlook_recordExpired (e : DelayExceeded) :
    (n.recordExpired e).outlook = n.outlook :=
  n.outlook_count e.link .expired

@[simp] theorem outlook_dispatch (p : SecuredPacket) : (n.dispatch p).2.outlook = n.outlook := by
  have hsubmit : (n.submit (.secured p)).2.outlook = n.outlook := rfl
  simp only [dispatch]
  split
  · split <;> rename_i hm <;> rw [hm] at hsubmit
    · exact hsubmit
    · split
      · exact (outlook_armDeadline _ p 0).trans hsubmit
      · exact hsubmit
  · exact n.outlook_armDeadline p 0

theorem outlook_sendWaiting (now : Millis) (ps : List SecuredPacket) :
    (n.sendWaiting now ps).2.2.outlook = n.outlook := by
  induction ps generalizing n with
  | nil => rfl
  | cons p ps ih =>
    have hsubmit : (n.submit (.secured p)).2.outlook = n.outlook := rfl
    rw [sendWaiting]
    split
    · rw [ih, outlook_recordExpired, outlook_disarmDeadline]
    · split <;> rename_i hm <;> rw [hm] at hsubmit
      · exact ((ih _).trans (outlook_disarmDeadline _ _)).trans hsubmit
      · split
        · exact hsubmit
        · exact ((ih _).trans (outlook_disarmDeadline _ _)).trans hsubmit

@[simp] theorem outlook_linkReady (nextHop : NodeId) (now : Millis) :
    (n.linkReady nextHop now).2.outlook = n.outlook :=
  (n.setQueue nextHop []).outlook_sendWaiting now (n.queue nextHop)

@[simp] theorem outlook_expireWaiting (link : LinkKey) (packet : PacketId) (now : Millis) :
    (n.expireWaiting link packet now).outlook = n.outlook := by
  simp only [expireWaiting]
  split
  · split
    · rfl
    · split
      · rfl
      · split
        · exact outlook_recordExpired _ _
        · exact outlook_armDeadline _ _ _
  · rfl

@[simp] theorem outlook_scheduleTick (now : Millis) : (n.scheduleTick now).outlook = n.outlook := by
  simp only [scheduleTick]
  split <;> rfl

/-! ## Levels -/

@[simp] theorem outlook_levelCrossed (link : LinkKey) (crossing : Crossing) (now : Millis) :
    (n.levelCrossed link crossing now).outlook = n.outlook.forgetLink link := by
  simp only [levelCrossed]
  split
  · exact outlook_chargeIfLow _ _ _
  · rfl

/-- A delivery that is taken in relevels the buffer of its link, and any other changes nothing. -/
theorem outlook_chargeDelivered (peer : NodeId) (bytes : Bytes) (now : Millis) :
    (n.chargeDelivered peer bytes now).2.outlook = n.outlook ∨
      ∃ b, n.outlook.buffers (n.linkTo peer) = some b ∧
        (n.chargeDelivered peer bytes now).2.outlook =
          n.outlook.relevel (n.linkTo peer) b (b.credit bytes).1 := by
  rcases n.chargeDelivered_cases peer bytes now with ⟨hsame, -⟩ | ⟨l, c, b, d, hl, hr⟩
  · exact .inl (congrArg outlook hsame)
  refine .inr ⟨l.buffer, congrArg (Option.map Link.buffer) hl, ?_⟩
  obtain ⟨rfl, -⟩ := Charger.receive_credit hr
  have hcrossing : d.crossing = (l.buffer.credit bytes).1.crossingFrom l.buffer.level :=
    Charger.receive_crossing hr
  have hcredited : (n.credited (n.linkTo peer) l c (l.buffer.credit bytes).1 d now).outlook =
      n.outlook.relevel (n.linkTo peer) l.buffer (l.buffer.credit bytes).1 := by
    simp only [credited, Outlook.relevel, hcrossing]
    cases (l.buffer.credit bytes).1.crossingFrom l.buffer.level with
    | none => exact n.outlook_insert _ _
    | some x =>
      simp only [outlook_levelCrossed]
      exact congrArg (Outlook.forgetLink · _) (n.outlook_insert _ _)
  rw [n.chargeDelivered_of_receive hl hr, ← hcredited]
  cases d.progress with
  | goesOn _ => exact outlook_awaitRound _ _ _ _ _
  | completed s => exact outlook_closeSession _ _ _

/-- A walk over routes takes the price of a packet out of one buffer, if it pays at all. -/
theorem outlook_payOnFirst (packet : Packet) (rs : List RankedRoute) :
    match n.payOnFirst packet rs with
    | (none, m) => m.outlook = n.outlook
    | (some secured, m) => ∃ b b' amount, n.outlook.buffers secured.packet.link = some b ∧
        b.debit amount = .ok (b', secured.crossing) ∧
        m.outlook = n.outlook.withBuffer secured.packet.link (some b') := by
  have hspent := n.spent_payOnFirst packet rs
  obtain ⟨links, hlinks⟩ := n.exists_payOnFirst packet rs
  split <;> rename_i hm <;> rw [hm] at hspent hlinks <;> simp only at hspent hlinks <;> subst hlinks
  · have hbuffers : links.buffer? = n.links.buffer? := by
      funext key
      have hmeter := congrFun (congrArg Reserve.meters hspent.2) key
      have hbuffer := congrArg (Option.map Meter.buffer) hmeter
      rwa [← buffer?_eq_meters, ← buffer?_eq_meters] at hbuffer
    simp only [outlook, hbuffers]
  · rename_i secured
    obtain ⟨k, l, amount, hk, hd, -, hreserve⟩ := hspent.debit
    refine ⟨k.buffer, l.buffer, amount, ?_, hd, ?_⟩
    · rw [show n.outlook.buffers = n.links.buffer? from rfl, buffer?_eq_meters, hk]
      rfl
    · have hbuffers : links.buffer? =
          Function.update n.links.buffer? secured.packet.link (some l.buffer) := by
        funext key
        have hmeter := congrFun (congrArg Reserve.meters hreserve) key
        have hbuffer := congrArg (Option.map Meter.buffer) hmeter
        rw [← buffer?_eq_meters] at hbuffer
        simp only [hbuffer, Function.update_apply, buffer?_eq_meters, Reserve.withMeter]
        split <;> rfl
      simp only [outlook, Outlook.withBuffer, hbuffers]

/-- A packet that has been paid for relevels the buffer of its link. -/
theorem outlook_sendPaid {m : Node} {secured : Secured} {b b' : KeyBuffer} {amount : Bytes}
    (hd : b.debit amount = .ok (b', secured.crossing))
    (hm : m.outlook = n.outlook.withBuffer secured.packet.link (some b'))
    (maxDelay : Option Millis) (now : Millis) :
    (m.sendPaid secured maxDelay now).2.outlook = n.outlook.relevel secured.packet.link b b' := by
  obtain ⟨-, -, -, -, -, hcrossing⟩ := KeyBuffer.debit_eq_ok_iff.1 hd
  simp only [sendPaid, outlook_dispatch, Outlook.relevel, ← hcrossing]
  cases secured.crossing with
  | none => exact hm
  | some x => exact (m.outlook_levelCrossed _ x now).trans (congrArg (Outlook.forgetLink · _) hm)

/-! ## Packets -/

theorem outlook_requestRoute (destination : NodeId) (now : Millis) :
    (n.requestRoute destination now).2.outlook =
      { n.outlook with protocols := n.protocols.requested n.role destination now } := by
  simp only [requestRoute, Protocols.requested]
  split <;> rename_i h <;> rw [h]
  · rfl
  · rfl
  · rename_i request p
    have hsubmit : ({ n with protocols := p }.submit (.route request)).2.outlook =
        { n.outlook with protocols := p } := rfl
    split <;> rename_i hm <;> rw [hm] at hsubmit <;> exact hsubmit

/-- What a secured packet does to the outlook. -/
theorem outlook_sendSecured (packet : Packet) (maxDelay : Option Millis) (now : Millis) :
    n.outlook.Sends packet.destination now (n.sendSecured packet maxDelay now).2.outlook := by
  simp only [sendSecured]
  split
  · rename_i hphase
    exact .refused (.inl hphase)
  rename_i hphase
  have hrun : n.outlook.phase = .running := not_not.1 hphase
  split
  · rename_i e he
    exact .refused (.inr ⟨e, he⟩)
  rename_i cs p hcs
  split
  · rename_i hempty
    obtain rfl := List.isEmpty_iff.1 hempty
    simp only [outlook_requestRoute]
    exact .unrouted hrun hcs
  rename_i hempty
  have hne : cs ≠ [] := fun h => hempty (List.isEmpty_iff.2 h)
  obtain ⟨unreachable, hselect⟩ := n.routing.exists_select packet.destination hne n.links now
  split <;> rename_i hsel <;> rw [hsel] at hselect <;> simp only at hselect <;> subst hselect
  · exact .checked hrun hcs hne unreachable
  · exact .checked hrun hcs hne unreachable
  · rename_i viable
    let m : Node := { n with
      protocols := p
      routing := { n.routing.checkAll .secured n.links.buffer? now cs with unreachable } }
    have hpaid := m.outlook_payOnFirst packet viable
    split <;> rename_i hm <;> rw [hm] at hpaid
    · obtain ⟨b, b', amount, hb, hd, hdebited⟩ := hpaid
      rw [m.outlook_sendPaid hd hdebited]
      exact .paid hrun hcs hne unreachable hb hd
    · rename_i k
      have hmarked : { k with
            routing := (k.routing.markUnreachable packet.destination).2 }.outlook =
          { n.outlook with
            protocols := p
            routing := { n.routing.checkAll .secured n.links.buffer? now cs with
              unreachable := unreachable.insert packet.destination () } } :=
        congrArg (fun o : Outlook => { o with
          routing := (o.routing.markUnreachable packet.destination).2 }) hpaid
      exact hmarked ▸ .checked hrun hcs hne _

/-- A packet that costs nothing goes over the first candidate that is viable for it. -/
theorem sendBestEffort_of_candidates {packet : Packet} {now : Millis} (hrun : n.phase = .running)
    {cs : List Candidate} {p : Protocols}
    (hcs : n.protocols.candidates n.role packet.destination now = .ok (cs, p)) {m : Node}
    (hm : m = { n with
      protocols := p
      routing := n.routing.checkAll .bestEffort n.links.buffer? now cs }) :
    n.sendBestEffort packet now =
      match cs.find? fun c => (n.routing.evaluate c.route .bestEffort n.links now).viable with
      | none =>
        (.ok (.noRoute packet (m.requestRoute packet.destination now).1),
          (m.requestRoute packet.destination now).2)
      | some c =>
        match m.submit (.plain c.nextHop packet) with
        | (none, m) => (.ok (.sent c.nextHop 0), m)
        | (some e, m) => (.error (.transport e), m) := by
  have hrank : (n.routing.rank cs .bestEffort n.links now).2 =
      n.routing.checkAll .bestEffort n.links.buffer? now cs :=
    n.routing.appraiseAll_checkAll .bestEffort n.links now cs
  have hfirst := n.routing.find?_rank cs .bestEffort n.links now
  rw [List.find?_map] at hfirst
  subst hm
  simp only [sendBestEffort, hrun, ne_eq, not_true, if_false, hcs, hrank, hfirst]
  simp only [Function.comp_def]
  cases cs.find? fun c => (n.routing.evaluate c.route .bestEffort n.links now).viable with
  | none => rfl
  | some c => rfl

/-- A route is asked for where no candidate is viable. -/
theorem outlook_sendBestEffort {packet : Packet} {now : Millis} (hrun : n.phase = .running)
    {cs : List Candidate} {p : Protocols}
    (hcs : n.protocols.candidates n.role packet.destination now = .ok (cs, p)) :
    (n.sendBestEffort packet now).2.outlook =
      { n.outlook with
        protocols :=
          match cs.find? fun c => (n.routing.evaluate c.route .bestEffort n.links now).viable with
          | none => p.requested n.role packet.destination now
          | some _ => p
        routing := n.routing.checkAll .bestEffort n.outlook.buffers now cs } := by
  rw [n.sendBestEffort_of_candidates hrun hcs rfl]
  cases cs.find? fun c => (n.routing.evaluate c.route .bestEffort n.links now).viable with
  | none => exact outlook_requestRoute _ _ _
  | some c => simp only; split <;> rename_i hm <;> exact congrArg (fun r => r.2.outlook) hm.symm

theorem sendBestEffort_of_refused {packet : Packet} {now : Millis} (h : n.phase ≠ .running ∨
      ∃ e, n.protocols.candidates n.role packet.destination now = .error e) :
    (n.sendBestEffort packet now).2 = n := by
  simp only [sendBestEffort]
  split
  · rfl
  · rename_i hrun
    obtain ⟨e, he⟩ := h.resolve_left hrun
    simp only [he]

/-! ## Links that come up or go down -/

/-- A link comes up with a buffer of its own, and a proactive protocol learns of it. -/
theorem outlook_bringUp (peer : NodeId) (bounds : Bounds) (now : Millis) :
    (n.bringUp peer bounds now).2.outlook = n.outlook.bringUp peer bounds now := by
  have hup : n.links.contains (n.linkTo peer) = (n.outlook.buffers (n.linkTo peer)).isSome :=
    Option.isSome_map.symm
  have hkey : LinkKey.join n.outlook.id peer = n.linkTo peer := rfl
  simp only [bringUp, Links.establish, Outlook.bringUp, hup, hkey]
  cases (n.linkTo peer).isLoop with
  | true => rfl
  | false =>
    cases n.outlook.buffers (n.linkTo peer) with
    | some b => rfl
    | none =>
      cases KeyBuffer.ofBounds bounds with
      | error e => rfl
      | ok b =>
        simp only [Bool.false_eq_true, if_false, Option.isSome_none, outlook_chargeIfLow]
        exact congrArg (fun o : Outlook => { o with protocols := { n.protocols with
          proactive := n.protocols.proactive.map fun (t : DistanceVector) =>
            (t.addNeighbor peer 0 now).2 } })
          (n.outlook_insert _ _)

theorem outlook_tick (now : Millis) : (n.tick now).outlook = n.outlook.tick now := by
  have hcharged : (n.links.keys.foldl (fun n key => n.chargeIfLow key now) n).outlook = n.outlook :=
    List.foldlRecOn (motive := fun m : Node => m.outlook = n.outlook) n.links.keys _ rfl
      fun m hm k _ => (m.outlook_chargeIfLow k now).trans hm
  exact congrArg (Outlook.tick · now) hcharged

theorem outlook_teardown (peer : NodeId) :
    (n.teardown peer).2.outlook = n.outlook.teardown peer := by
  obtain ⟨agenda, h⟩ := n.exists_teardown peer
  rw [h]
  exact congrArg (fun o : Outlook => { o.forgetLink (n.linkTo peer) with
    protocols := (n.protocols.removeNextHop peer).2 }) (n.outlook_eraseLink (n.linkTo peer))

theorem outlook_bringUpAll (now : Millis) (ls : List LinkSettings) :
    (n.bringUpAll now ls).2.outlook = n.outlook.bringUpAll now ls := by
  induction ls generalizing n with
  | nil => rfl
  | cons l ls ih =>
    exact (ih _).trans (congrArg (Outlook.bringUpAll · now ls)
      (n.outlook_bringUp l.peer (l.boundsOr n.config.buffer) now))

theorem outlook_start (now : Millis) :
    (n.start now).2.outlook =
      if n.phase ≠ .created then n.outlook
      else { n.outlook.bringUpAll now n.config.links with phase := .running } := by
  simp only [start]
  split
  · rfl
  · rw [outlook_scheduleTick]
    exact congrArg (fun o : Outlook => { o with phase := .running })
      (n.outlook_bringUpAll now n.config.links)

theorem outlook_establish (peer : NodeId) (bounds : Bounds) (now : Millis) :
    (n.establish peer bounds now).2.outlook =
      if n.phase = .stopped then n.outlook else n.outlook.bringUp peer bounds now := by
  have h := n.outlook_bringUp peer bounds now
  simp only [establish]
  split
  · rfl
  · split <;> rename_i hm <;> rw [hm] at h <;> exact h

theorem outlook_teardownAll (keys : List LinkKey) :
    (n.teardownAll keys).outlook = n.outlook.teardownAll keys := by
  induction keys generalizing n with
  | nil => rfl
  | cons key keys ih =>
    refine (ih _).trans (congrArg (Outlook.teardownAll · keys) ?_)
    show (match key.other n.id with
        | some peer => (n.teardown peer).2
        | none => n).outlook =
      match key.other n.id with
      | some peer => n.outlook.teardown peer
      | none => n.outlook
    cases key.other n.id with
    | none => rfl
    | some peer => exact n.outlook_teardown peer

theorem outlook_shutdown :
    n.shutdown.outlook =
      if n.phase = .stopped then n.outlook
      else { n.outlook.teardownAll n.links.keys with phase := .stopped } := by
  simp only [shutdown]
  split
  · rfl
  · exact congrArg (fun o : Outlook => { o with phase := .stopped })
      ((outlook_cancelTimer _ _).trans (n.outlook_teardownAll n.links.keys))

/-! ## Timers and routes -/

/-- Of all timers only a tick bears on the outlook. -/
theorem outlook_onTimer (timer : Timer) (now : Millis) :
    (n.onTimer timer now).outlook =
      if timer = .tick ∧ n.phase = .running then n.outlook.tick now else n.outlook := by
  cases timer with
  | chargingRound link => exact n.outlook_chargingRound link now
  | deadline link packet => exact n.outlook_expireWaiting link packet now
  | tick =>
    simp only [onTimer, true_and]
    split
    · rw [outlook_scheduleTick, outlook_tick]
      rfl
    · rfl

theorem outlook_onAdvertisement (sender destination : NodeId) (hops : UInt8) (seq : UInt32)
    (now : Millis) : (n.onAdvertisement sender destination hops seq now).2.outlook =
      { n.outlook with protocols := n.protocols.advertised sender destination hops seq now } := by
  simp only [onAdvertisement, Protocols.advertised]
  cases n.protocols.proactive <;> rfl

theorem outlook_onRouteReply (nextHop destination : NodeId) (hops : UInt8) (seq : UInt32)
    (now : Millis) : (n.onRouteReply nextHop destination hops seq now).2.outlook =
      { n.outlook with protocols := n.protocols.replied nextHop destination hops seq now } := by
  simp only [onRouteReply, Protocols.replied]
  cases n.protocols.reactive <;> rfl

end Node

end KeyReserve
