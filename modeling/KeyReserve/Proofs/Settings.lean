import KeyReserve.Node.Basic

/-!
# Settings

Parts of a node hold copies of what its configuration says: the charger its rounds, the check of
routes its least levels, the protocols the node whose routes they keep. No step changes a copy, so
that on every node they agree with the configuration.

## Main definitions

* `Settings`, `Node.settings`: what a node has been configured with, wherever it is kept;
* `Settings.ofConfig`: what a configuration says of it.

## Main results

* `Node.settings_create`: a new node is configured as its configuration says;
* `Protocols.candidates_ok`: the protocol in use is installed, so that each lookup has an answer.
-/

namespace KeyReserve

/-- The settings of the protocols that are installed: node and jitter of the proactive one; node,
lifetime and jitter of the reactive one. -/
def Protocols.settings (p : Protocols) :
    Option (NodeId × Millis) × Option (NodeId × Millis × Millis) :=
  (p.proactive.map fun t => (t.home, t.maxJitter),
    p.reactive.map fun t => (t.home, t.lifetime, t.maxJitter))

/-- What the configuration fixes for the life of a node. -/
structure Settings where
  id : NodeId
  config : Config
  /-- The node for which routes are judged. -/
  home : NodeId
  securedMin : Bytes
  bestEffortMin : Bytes
  epochLength : Millis
  sendSize : Bytes
  totalAmount : Bytes
  protocols : Option (NodeId × Millis) × Option (NodeId × Millis × Millis)

/-- The settings of a node with a number and a configuration. -/
def Settings.ofConfig (id : NodeId) (c : Config) : Settings :=
  { id
    config := c
    home := id
    securedMin := c.routing.securedMin
    bestEffortMin := c.routing.bestEffortMin
    epochLength := c.routing.epochLength
    sendSize := if c.charging.sendSize = 0 then 1 else c.charging.sendSize
    totalAmount := c.charging.totalAmount
    protocols :=
      match c.routing.protocol with
      | .proactive => (some (id, c.routing.maxRequestJitter), none)
      | .reactive => (none, some (id, c.routing.routeLifetime, c.routing.maxRequestJitter)) }

def Node.settings (n : Node) : Settings :=
  { id := n.id
    config := n.config
    home := n.routing.home
    securedMin := n.routing.securedMin
    bestEffortMin := n.routing.bestEffortMin
    epochLength := n.routing.epochLength
    sendSize := n.charger.sendSize
    totalAmount := n.charger.totalAmount
    protocols := n.protocols.settings }

/-- Every part of the node is configured as the configuration says. -/
def Node.Configured (n : Node) : Prop := n.settings = .ofConfig n.id n.config

theorem Node.settings_create {config : Config} {t : Transport} {n : Node}
    (h : create config t = .ok n) : n.settings = .ofConfig n.id config := by
  unfold create at h
  split at h
  · cases h
  · cases h
    simp only [settings, Settings.ofConfig, protocolsFor]
    cases config.routing.protocol <;> rfl

/-! ## Protocols -/

namespace DistanceVector

theorem learn_settings (t : DistanceVector) (route : Route) (hops : UInt8) (seq : UInt32)
    (now : Millis) : (t.learn route hops seq now).2.home = t.home ∧
      (t.learn route hops seq now).2.maxJitter = t.maxJitter := by
  unfold learn
  split
  · exact ⟨rfl, rfl⟩
  · split <;> exact ⟨rfl, rfl⟩

end DistanceVector

namespace OnDemand

theorem onRouteReply_settings (t : OnDemand) (nextHop destination : NodeId) (hops : UInt8)
    (seq : UInt32) (now : Millis) :
    let u := (t.onRouteReply nextHop destination hops seq now).2
    u.home = t.home ∧ u.lifetime = t.lifetime ∧ u.maxJitter = t.maxJitter := by
  unfold onRouteReply
  split
  · exact ⟨rfl, rfl, rfl⟩
  · simp only
    split <;> exact ⟨rfl, rfl, rfl⟩

theorem request_settings (t : OnDemand) (destination : NodeId) (now : Millis) :
    let u := (t.request destination now).2
    u.home = t.home ∧ u.lifetime = t.lifetime ∧ u.maxJitter = t.maxJitter := by
  unfold request
  split <;> exact ⟨rfl, rfl, rfl⟩

end OnDemand

namespace Protocols

theorem candidates_settings {p q : Protocols} {role : Role} {destination : NodeId} {now : Millis}
    {cs : List Candidate} (h : p.candidates role destination now = .ok (cs, q)) :
    q.settings = p.settings := by
  cases role <;> simp only [candidates] at h <;> split at h <;> cases h
  · rename_i t ht
    simp only [settings, ht]
    rfl
  · rename_i t ht
    simp only [settings, ht]
    rfl

theorem request_settings {p q : Protocols} {role : Role} {destination : NodeId} {now : Millis}
    {r : Option RouteRequest} (h : p.request role destination now = .ok (r, q)) :
    q.settings = p.settings := by
  cases role <;> simp only [request] at h <;> split at h <;> cases h
  · rfl
  · rename_i t ht
    obtain ⟨h1, h2, h3⟩ := t.request_settings destination now
    simp only [settings, ht, Option.map_some, h1, h2, h3]

theorem purge_settings (p : Protocols) (now : Millis) : (p.purge now).2.settings = p.settings := by
  unfold purge
  split
  · rfl
  · rename_i t ht
    simp only [settings, ht]
    rfl

theorem removeNextHop_settings (p : Protocols) (nextHop : NodeId) :
    (p.removeNextHop nextHop).2.settings = p.settings := by
  simp only [settings, removeNextHop, Option.map_map]
  rfl

theorem learn_settings (p : Protocols) {f : DistanceVector → DistanceVector}
    (hf : ∀ t, (f t).home = t.home ∧ (f t).maxJitter = t.maxJitter) :
    settings { p with proactive := p.proactive.map f } = p.settings := by
  have hmap : (fun t : DistanceVector => (t.home, t.maxJitter)) ∘ f =
      fun t => (t.home, t.maxJitter) := funext fun t => Prod.ext (hf t).1 (hf t).2
  simp only [settings, Option.map_map, hmap]

/-- A lookup has an answer where the protocol of the role is installed. -/
theorem candidates_ok {p : Protocols} {role : Role} (h : p.installed role) (destination : NodeId)
    (now : Millis) : ∃ cs q, p.candidates role destination now = .ok (cs, q) := by
  cases role with
  | proactive =>
    obtain ⟨t, ht⟩ := Option.isSome_iff_exists.1 h
    exact ⟨_, _, by rw [candidates, ht]⟩
  | reactive =>
    obtain ⟨t, ht⟩ := Option.isSome_iff_exists.1 h
    exact ⟨_, _, by rw [candidates, ht]⟩

end Protocols

theorem Node.Configured.installed {n : Node} (h : n.Configured) : n.protocols.installed n.role := by
  have hp : n.protocols.settings = _ := congrArg Settings.protocols h
  unfold role
  cases hr : n.config.routing.protocol with
  | proactive =>
    have h1 := congrArg Prod.fst hp
    simp only [Settings.ofConfig, hr, Protocols.settings] at h1
    show n.protocols.proactive.isSome = true
    rw [← Option.isSome_map, h1]
    rfl
  | reactive =>
    have h2 := congrArg Prod.snd hp
    simp only [Settings.ofConfig, hr, Protocols.settings] at h2
    show n.protocols.reactive.isSome = true
    rw [← Option.isSome_map, h2]
    rfl

/-! ## Charging -/

namespace Charger

theorem openIfLow_settings (c : Charger) (link : LinkKey) (buffer : KeyBuffer) (now : Millis) :
    (c.openIfLow link buffer now).1.sendSize = c.sendSize ∧
      (c.openIfLow link buffer now).1.totalAmount = c.totalAmount := by
  unfold openIfLow
  split <;> exact ⟨rfl, rfl⟩

theorem takeFollowUp_settings (c : Charger) (link : LinkKey) :
    (c.takeFollowUp link).1.sendSize = c.sendSize ∧
      (c.takeFollowUp link).1.totalAmount = c.totalAmount := by
  unfold takeFollowUp
  split <;> exact ⟨rfl, rfl⟩

theorem setFollowUp_settings {c c' : Charger} {link : LinkKey} {timer : TimerId}
    {replaced : Option TimerId} (h : c.setFollowUp link timer = .ok (c', replaced)) :
    c'.sendSize = c.sendSize ∧ c'.totalAmount = c.totalAmount := by
  unfold setFollowUp at h
  split at h
  · cases h
  · cases h
    exact ⟨rfl, rfl⟩

theorem receive_credit {c c' : Charger} {link : LinkKey} {buffer buffer' : KeyBuffer}
    {bytes : Bytes} {d : Delivery} (h : c.receive link buffer bytes = .ok (c', buffer', d)) :
    buffer' = (buffer.credit bytes).1 ∧ d.applied = (buffer.credit bytes).2.applied := by
  unfold receive at h
  split at h
  · cases h
  · simp only at h
    split at h <;> cases h <;> exact ⟨rfl, rfl⟩

theorem receive_settings {c c' : Charger} {link : LinkKey} {buffer buffer' : KeyBuffer}
    {bytes : Bytes} {d : Delivery} (h : c.receive link buffer bytes = .ok (c', buffer', d)) :
    c'.sendSize = c.sendSize ∧ c'.totalAmount = c.totalAmount := by
  unfold receive at h
  split at h
  · cases h
  · simp only at h
    split at h <;> cases h <;> exact ⟨rfl, rfl⟩

end Charger

/-- An epoch that ends takes nothing but recorded checks with it. -/
theorem KeyAware.maybeNewEpoch_settings (k : KeyAware) (now : Millis) :
    ∃ epoch epochStart appraisals, (k.maybeNewEpoch now).2 =
      { k with epoch, epochStart, appraisals } := by
  unfold maybeNewEpoch
  split
  · exact ⟨k.epoch, k.epochStart, k.appraisals, rfl⟩
  · exact ⟨_, _, _, rfl⟩

theorem KeyAware.appraiseAll_settings (k : KeyAware) (c : TrafficClass) (links : Links)
    (now : Millis) (cs : List Candidate) :
    ∃ appraisals, (k.appraiseAll c links now cs).2 = { k with appraisals } := by
  induction cs generalizing k with
  | nil => exact ⟨k.appraisals, rfl⟩
  | cons x xs ih =>
    obtain ⟨appraisals, h⟩ := ih (k.appraise x.route c links now).2
    exact ⟨appraisals, h⟩

end KeyReserve
