import KeyReserve.Proofs.Outlook

/-!
# The native part of a node

Key material decides which of the routes that a protocol offers secured traffic takes. It has no
part in what the protocol offers. All that bears on native routes is which links come up and go
down, what other nodes advertise or reply, when routes are looked up and when expired ones are
dropped; and all of this meets in a part of the node that knows of no buffer.

## Main definitions

* `Native`: what a node knows of routes apart from key material;
* `Call.input?`, `Native.apply`: what of a call bears on native routes, and what it does to them;
* `Outlook.Shows`: the native part of an outlook.

## Main results

* `Node.shows_apply`, `Node.shows_run`: a call does to the native part what its input does, and so
  do calls in a row.
-/

namespace KeyReserve

/-- The peers of a configuration, with whether the bounds of their buffers are in order. -/
def Config.peers (c : Config) : List (NodeId × Bool) :=
  c.links.map fun l => (l.peer, decide (l.boundsOr c.buffer).Ordered)

/-- What a node knows of routes apart from key material. -/
structure Native where
  id : NodeId
  role : Role
  /-- The peers to which links come up at the start, with whether they can. -/
  peers : List (NodeId × Bool)
  phase : Phase
  /-- The links that are up. -/
  up : Table LinkKey Unit
  protocols : Protocols

namespace Native

/-- What bears on native routes. -/
inductive Input where
  | start (now : Millis)
  | establish (peer : NodeId) (ordered : Bool) (now : Millis)
  | teardown (peer : NodeId)
  | shutdown
  | tick (now : Millis)
  /-- The timer of a tick, which has no effect unless the node runs. -/
  | tickTimer (now : Millis)
  | send (destination : NodeId) (now : Millis)
  | advertisement (sender destination : NodeId) (hops : UInt8) (seq : UInt32) (now : Millis)
  | routeReply (nextHop destination : NodeId) (hops : UInt8) (seq : UInt32) (now : Millis)
  deriving DecidableEq

variable (v : Native)

/-- The link to a peer comes up, where it joins two nodes and is down and its bounds are in
order. -/
def bringUp (peer : NodeId) (ordered : Bool) (now : Millis) : Native :=
  if !(LinkKey.join v.id peer).isLoop && !v.up.contains (.join v.id peer) && ordered then
    { v with
      up := v.up.insert (.join v.id peer) ()
      protocols := { v.protocols with
        proactive := v.protocols.proactive.map fun t => (t.addNeighbor peer 0 now).2 } }
  else
    v

def bringUpAll (now : Millis) (peers : List (NodeId × Bool)) : Native :=
  peers.foldl (fun v p => v.bringUp p.1 p.2 now) v

def teardown (peer : NodeId) : Native :=
  { v with
    up := v.up.erase (.join v.id peer)
    protocols := (v.protocols.removeNextHop peer).2 }

def teardownAll (keys : List LinkKey) : Native :=
  keys.foldl
    (fun v key =>
      match key.other v.id with
      | some peer => v.teardown peer
      | none => v)
    v

def tick (now : Millis) : Native := { v with protocols := (v.protocols.purge now).2 }

/-- Routes are looked up, and one is asked for where there is none. -/
def send (destination : NodeId) (now : Millis) : Native :=
  if v.phase = .running then
    match v.protocols.candidates v.role destination now with
    | .error _ => v
    | .ok ([], p) => { v with protocols := p.requested v.role destination now }
    | .ok (_ :: _, p) => { v with protocols := p }
  else
    v

variable {v} in
theorem send_refused {destination : NodeId} {now : Millis} (h : v.phase ≠ .running ∨
      ∃ e, v.protocols.candidates v.role destination now = .error e) :
    v.send destination now = v := by
  simp only [send]
  split
  · rename_i hrun
    obtain ⟨e, he⟩ := h.resolve_left (not_not.2 hrun)
    simp only [he]
  · rfl

variable {v} in
theorem send_nil {destination : NodeId} {now : Millis} (hrun : v.phase = .running) {p : Protocols}
    (hcs : v.protocols.candidates v.role destination now = .ok ([], p)) :
    v.send destination now = { v with protocols := p.requested v.role destination now } := by
  simp only [send, hrun, if_true, hcs]

variable {v} in
theorem send_of_ne_nil {destination : NodeId} {now : Millis} (hrun : v.phase = .running)
    {cs : List Candidate} {p : Protocols}
    (hcs : v.protocols.candidates v.role destination now = .ok (cs, p)) (hne : cs ≠ []) :
    v.send destination now = { v with protocols := p } := by
  obtain ⟨c, cs, rfl⟩ := List.exists_cons_of_ne_nil hne
  simp only [send, hrun, if_true, hcs]

/-- What an input does to native routes. -/
def apply : Input → Native
  | .start now =>
    if v.phase ≠ .created then v else { v.bringUpAll now v.peers with phase := .running }
  | .establish peer ordered now =>
    if v.phase = .stopped then v else v.bringUp peer ordered now
  | .teardown peer => v.teardown peer
  | .shutdown =>
    if v.phase = .stopped then v else { v.teardownAll v.up.keys with phase := .stopped }
  | .tick now => v.tick now
  | .tickTimer now => if v.phase = .running then v.tick now else v
  | .send destination now => v.send destination now
  | .advertisement sender destination hops seq now =>
    { v with protocols := v.protocols.advertised sender destination hops seq now }
  | .routeReply nextHop destination hops seq now =>
    { v with protocols := v.protocols.replied nextHop destination hops seq now }

/-- The native part of a new node. -/
def ofConfig (id : NodeId) (c : Config) : Native :=
  { id
    role := c.routing.protocol
    peers := c.peers
    phase := .created
    up := .empty
    protocols := Node.protocolsFor id c.routing }

end Native

/-- What of a call bears on native routes. Deliveries and failures of key material, transports that
are ready, timers other than ticks and the record do not. -/
def Call.input? : Call → Option Native.Input
  | .start now => some (.start now)
  | .establish peer bounds now => some (.establish peer (decide bounds.Ordered) now)
  | .teardown peer => some (.teardown peer)
  | .shutdown => some .shutdown
  | .tick now => some (.tick now)
  | .timer .tick now => some (.tickTimer now)
  | .sendSecured packet _ now => some (.send packet.destination now)
  | .sendBestEffort packet now => some (.send packet.destination now)
  | .advertisement sender destination hops seq now =>
    some (.advertisement sender destination hops seq now)
  | .routeReply nextHop destination hops seq now =>
    some (.routeReply nextHop destination hops seq now)
  | _ => none

/-! ## The native part of an outlook -/

/-- The native part of an outlook. -/
structure Outlook.Shows (o : Outlook) (v : Native) : Prop where
  id : v.id = o.id
  role : v.role = o.config.routing.protocol
  peers : v.peers = o.config.peers
  phase : v.phase = o.phase
  protocols : v.protocols = o.protocols
  up : ∀ key, v.up.contains key = (o.buffers key).isSome

namespace Outlook.Shows

variable {o : Outlook} {v : Native}

/-- A buffer that has another level is no part of native routes. -/
theorem relevel (h : o.Shows v) {key : LinkKey} {b : KeyBuffer} (hb : o.buffers key = some b)
    (b' : KeyBuffer) : (o.relevel key b b').Shows v := by
  have hup : ∀ k, v.up.contains k = (Function.update o.buffers key (some b') k).isSome := by
    intro k
    rw [h.up, Function.update_apply]
    split
    · rename_i hk
      rw [hk, hb]
      rfl
    · rfl
  simp only [Outlook.relevel]
  split
  · exact ⟨h.id, h.role, h.peers, h.phase, h.protocols, hup⟩
  · exact ⟨h.id, h.role, h.peers, h.phase, h.protocols, hup⟩

theorem bringUp (h : o.Shows v) (peer : NodeId) (bounds : Bounds) (now : Millis) :
    (o.bringUp peer bounds now).Shows (v.bringUp peer (decide bounds.Ordered) now) := by
  have hdown := h.up (.join o.id peer)
  simp only [Outlook.bringUp, Native.bringUp, h.id, hdown]
  cases (LinkKey.join o.id peer).isLoop with
  | true => exact h
  | false =>
    cases hb : o.buffers (.join o.id peer) with
    | some b => exact h
    | none =>
      by_cases hordered : bounds.Ordered
      · simp only [KeyBuffer.ofBounds, hordered, dif_pos, Bool.not_false, Option.isSome_none,
          decide_true, Bool.and_self, if_true, h.protocols]
        refine ⟨rfl, h.role, h.peers, h.phase, rfl, fun k => ?_⟩
        simp only [withBuffer, Table.contains_eq_isSome, Table.find?_insert, Function.update_apply]
        split
        · rfl
        · exact h.up k
      · simp only [KeyBuffer.ofBounds, hordered, dif_neg, not_false_eq_true, decide_false,
          Bool.and_false, Bool.false_eq_true, if_false]
        exact h

theorem bringUpAll (h : o.Shows v) (now : Millis) (ls : List LinkSettings) :
    (o.bringUpAll now ls).Shows (v.bringUpAll now
      (ls.map fun l => (l.peer, decide (l.boundsOr o.config.buffer).Ordered))) := by
  induction ls generalizing o v with
  | nil => exact h
  | cons l ls ih =>
    have hfirst := h.bringUp l.peer (l.boundsOr o.config.buffer) now
    have hconfig : (o.bringUp l.peer (l.boundsOr o.config.buffer) now).config = o.config := by
      simp only [Outlook.bringUp]
      split <;> rfl
    have hrest := ih hfirst
    rw [hconfig] at hrest
    exact hrest

theorem teardown (h : o.Shows v) (peer : NodeId) : (o.teardown peer).Shows (v.teardown peer) := by
  refine ⟨h.id, h.role, h.peers, h.phase, ?_, fun k => ?_⟩
  · simp only [Native.teardown, Outlook.teardown, h.protocols]
  · simp only [Native.teardown, Outlook.teardown, forgetLink, withBuffer, h.id,
      Table.contains_eq_isSome, Table.find?_erase, Function.update_apply]
    split
    · rfl
    · exact h.up k

theorem teardownAll (h : o.Shows v) (keys : List LinkKey) :
    (o.teardownAll keys).Shows (v.teardownAll keys) := by
  induction keys generalizing o v with
  | nil => exact h
  | cons key keys ih =>
    refine ih ?_
    simp only [h.id]
    cases key.other o.id with
    | none => exact h
    | some peer => exact h.teardown peer

theorem tick (h : o.Shows v) (now : Millis) : (o.tick now).Shows (v.tick now) :=
  ⟨h.id, h.role, h.peers, h.phase, congrArg (fun p : Protocols => (p.purge now).2) h.protocols,
    h.up⟩

theorem candidates (h : o.Shows v) (destination : NodeId) (now : Millis) :
    v.protocols.candidates v.role destination now =
      o.protocols.candidates o.config.routing.protocol destination now := by
  rw [h.protocols, h.role]

/-- What is recorded of checks is no part of native routes. -/
theorem learned (h : o.Shows v) (p : Protocols) (routing : KeyAware) :
    { o with protocols := p, routing }.Shows { v with protocols := p } :=
  ⟨h.id, h.role, h.peers, h.phase, rfl, h.up⟩

/-- A secured packet looks routes up, whatever comes of it. -/
theorem send (h : o.Shows v) {o' : Outlook} {destination : NodeId} {now : Millis}
    (hsends : o.Sends destination now o') : o'.Shows (v.send destination now) := by
  have hcandidates := h.candidates destination now
  cases hsends with
  | refused hnot =>
    rw [← h.phase, ← hcandidates] at hnot
    rw [Native.send_refused hnot]
    exact h
  | unrouted hrun hcs =>
    rw [Native.send_nil (h.phase.trans hrun) (hcandidates.trans hcs), ← h.role]
    exact h.learned _ o.routing
  | checked hrun hcs hne unreachable =>
    rw [Native.send_of_ne_nil (h.phase.trans hrun) (hcandidates.trans hcs) hne]
    exact h.learned _ _
  | @paid cs p hrun hcs hne unreachable key b b' amount crossing hb hd =>
    rw [Native.send_of_ne_nil (h.phase.trans hrun) (hcandidates.trans hcs) hne]
    exact (h.learned p { o.routing.checkAll .secured o.buffers now cs with unreachable }).relevel
      hb b'

end Outlook.Shows

/-! ## Calls -/

namespace Node

variable {n : Node}

/-- Where traffic that costs nothing needs no level, every candidate is viable for it. -/
theorem viable_bestEffort (h : n.Configured) (hleast : n.config.routing.bestEffortMin = 0)
    (c : Candidate) (now : Millis) :
    (n.routing.evaluate c.route .bestEffort n.links now).viable = true := by
  have hmin : n.routing.bestEffortMin = 0 := (congrArg Settings.bestEffortMin h).trans hleast
  simp only [KeyAware.evaluate, Appraisal.evaluate, KeyAware.least, hmin]
  cases n.links.buffer? (c.route.link n.routing.home) with
  | none => rfl
  | some b => exact decide_eq_true (p := 0 ≤ b.current) UInt64.zero_le

/-- The candidate that a packet which costs nothing goes over is the first. -/
theorem find?_viable (h : n.Configured) (hleast : n.config.routing.bestEffortMin = 0)
    (cs : List Candidate) (now : Millis) :
    cs.find? (fun c => (n.routing.evaluate c.route .bestEffort n.links now).viable) = cs.head? := by
  cases cs with
  | nil => rfl
  | cons c cs => exact List.find?_cons_of_pos (viable_bestEffort h hleast c now)

theorem shows_sendBestEffort {v : Native} (h : n.outlook.Shows v) (hconf : n.Configured)
    (hleast : n.config.routing.bestEffortMin = 0) (packet : Packet) (now : Millis) :
    (n.sendBestEffort packet now).2.outlook.Shows (v.send packet.destination now) := by
  have hcandidates := h.candidates packet.destination now
  have hrefused : ∀ hnot : n.phase ≠ .running ∨
      ∃ e, n.protocols.candidates n.role packet.destination now = .error e,
      (n.sendBestEffort packet now).2.outlook.Shows (v.send packet.destination now) := by
    intro hnot
    rw [n.sendBestEffort_of_refused hnot, Native.send_refused ?_]
    · exact h
    · rw [h.phase, hcandidates]
      exact hnot
  by_cases hrun : n.phase = .running
  · cases hcs : n.protocols.candidates n.role packet.destination now with
    | error e => exact hrefused (.inr ⟨e, hcs⟩)
    | ok answer =>
      obtain ⟨cs, p⟩ := answer
      rw [n.outlook_sendBestEffort hrun hcs, find?_viable hconf hleast]
      cases cs with
      | nil =>
        rw [Native.send_nil (h.phase.trans hrun) (hcandidates.trans hcs),
          show n.role = v.role from h.role.symm]
        exact h.learned _ _
      | cons c cs =>
        rw [Native.send_of_ne_nil (h.phase.trans hrun) (hcandidates.trans hcs)
          (List.cons_ne_nil c cs)]
        exact h.learned _ _
  · exact hrefused (.inl hrun)

/-- A call does to the native part of a node what its input does, or nothing if it has none. -/
theorem shows_apply {v : Native} (h : n.outlook.Shows v) (hconf : n.Configured)
    (hleast : n.config.routing.bestEffortMin = 0) (c : Call) :
    (n.apply c).outlook.Shows (c.input?.toList.foldl Native.apply v) := by
  have hsame : ∀ {m : Node}, m.outlook = n.outlook → m.outlook.Shows v := fun heq => heq ▸ h
  cases c with
  | start now =>
    show (n.start now).2.outlook.Shows (if v.phase ≠ .created then v
      else { v.bringUpAll now v.peers with phase := .running })
    have hup := h.bringUpAll now n.config.links
    rw [outlook_start, show v.phase = n.phase from h.phase, h.peers]
    split
    · exact h
    · exact ⟨hup.id, hup.role, hup.peers, rfl, hup.protocols, hup.up⟩
  | establish peer bounds now =>
    show (n.establish peer bounds now).2.outlook.Shows (if v.phase = .stopped then v
      else v.bringUp peer (decide bounds.Ordered) now)
    rw [outlook_establish, show v.phase = n.phase from h.phase]
    split
    · exact h
    · exact h.bringUp peer bounds now
  | teardown peer =>
    show (n.teardown peer).2.outlook.Shows (v.teardown peer)
    rw [outlook_teardown]
    exact h.teardown peer
  | shutdown =>
    show n.shutdown.outlook.Shows (if v.phase = .stopped then v
      else { v.teardownAll v.up.keys with phase := .stopped })
    have hset : v.up = Table.keySet n.links := Table.ext_contains fun key => by
      rw [h.up, Table.contains_keySet]
      exact Option.isSome_map
    have hkeys : v.up.keys = n.links.keys := by rw [hset, Table.keys_keySet]
    have hdown := h.teardownAll n.links.keys
    rw [outlook_shutdown, show v.phase = n.phase from h.phase, hkeys]
    split
    · exact h
    · exact ⟨hdown.id, hdown.role, hdown.peers, rfl, hdown.protocols, hdown.up⟩
  | tick now =>
    show (n.tick now).outlook.Shows (v.tick now)
    rw [outlook_tick]
    exact h.tick now
  | timer timer now =>
    cases timer with
    | chargingRound link => exact hsame (n.outlook_chargingRound link now)
    | deadline link packet => exact hsame (n.outlook_expireWaiting link packet now)
    | tick =>
      show (n.onTimer .tick now).outlook.Shows (if v.phase = .running then v.tick now else v)
      rw [outlook_onTimer, show v.phase = n.phase from h.phase]
      simp only [true_and]
      split
      · exact h.tick now
      · exact h
  | sendSecured packet maxDelay now => exact h.send (n.outlook_sendSecured packet maxDelay now)
  | sendBestEffort packet now => exact shows_sendBestEffort h hconf hleast packet now
  | linkReady nextHop now => exact hsame (n.outlook_linkReady nextHop now)
  | chargeDelivered peer bytes now =>
    show (n.chargeDelivered peer bytes now).2.outlook.Shows v
    rcases n.outlook_chargeDelivered peer bytes now with heq | ⟨b, hb, heq⟩ <;> rw [heq]
    · exact h
    · exact h.relevel hb _
  | chargeFailed peer reason => exact hsame (n.outlook_abandonCharging _ reason)
  | advertisement sender destination hops seq now =>
    show (n.onAdvertisement sender destination hops seq now).2.outlook.Shows
      { v with protocols := v.protocols.advertised sender destination hops seq now }
    rw [outlook_onAdvertisement, h.protocols]
    exact ⟨h.id, h.role, h.peers, h.phase, rfl, h.up⟩
  | routeReply nextHop destination hops seq now =>
    show (n.onRouteReply nextHop destination hops seq now).2.outlook.Shows
      { v with protocols := v.protocols.replied nextHop destination hops seq now }
    rw [outlook_onRouteReply, h.protocols]
    exact ⟨h.id, h.role, h.peers, h.phase, rfl, h.up⟩
  | drainEvents => exact h
  | rearrange agenda => exact h

theorem shows_run {v : Native} (h : n.outlook.Shows v) (hs : n.Sound)
    (hleast : n.config.routing.bestEffortMin = 0) (cs : List Call) :
    (n.run cs).outlook.Shows ((cs.filterMap Call.input?).foldl Native.apply v) := by
  induction cs generalizing n v with
  | nil => exact h
  | cons c cs ih =>
    have hconfig : (n.apply c).config = n.config :=
      congrArg Settings.config (hs.effect c).settings
    have hrest := ih (shows_apply h hs.configured hleast c) (hs.apply c) (hconfig ▸ hleast)
    cases hc : c.input? with
    | none =>
      rw [hc] at hrest
      rw [List.filterMap_cons_none hc]
      exact hrest
    | some i =>
      rw [hc] at hrest
      rw [List.filterMap_cons_some hc]
      exact hrest

theorem shows_create {config : Config} {t : Transport} (h : create config t = .ok n) :
    n.outlook.Shows (.ofConfig n.id config) := by
  simp only [create] at h
  split at h <;> cases h
  exact ⟨rfl, rfl, rfl, rfl, rfl, fun key => rfl⟩

end Node

end KeyReserve
