import KeyReserve.Proofs.Candidates
import KeyReserve.Proofs.Holdings
import KeyReserve.Proofs.Numbering

/-!
# What goes with a link

A node keeps what belongs to a link in many places, and finds it there in different ways: by the key
of the link, by the peer as the next hop, or by the numbers of timers. Tearing a link down clears
all these places and leaves in each of them what belongs to other links.

## Main definitions

* `Node.Clear`: nothing on the node belongs to the link to a peer;
* `Node.KeepsOthers`: what does not belong to that link is as it was.

## Main results

* `Node.clear_teardown`, `Node.keepsOthers_teardown`: what is cleared, and what is left;
* `Node.Clear.teardown_eq`: where nothing is left, nothing more is cleared;
* `Node.pending_teardown`: the timers of other links stay, where no number is given out again;
* `Node.teardown_outcome`: all of this, on any node that calls lead to.
-/

namespace KeyReserve

namespace Node

/-- Nothing on the node belongs to the link to a peer. -/
structure Clear (n : Node) (peer : NodeId) : Prop where
  link : n.links.find? (n.linkTo peer) = none
  session : n.charger.session? (n.linkTo peer) = none
  queue : n.queues.find? peer = none
  deadlines : ∀ packet d, n.deadlines.find? packet = some d → d.link ≠ n.linkTo peer
  appraisals : ∀ route trafficClass a,
    n.routing.appraisals.find? (route, trafficClass) = some a → route.nextHop ≠ peer
  advertised : ∀ t, n.protocols.proactive = some t → ∀ route e,
    t.routes.find? route = some e → route.nextHop ≠ peer
  replied : ∀ t, n.protocols.reactive = some t → ∀ route e,
    t.routes.find? route = some e → route.nextHop ≠ peer

/-- What does not belong to the link to a peer is as it was. -/
structure KeepsOthers (n m : Node) (peer : NodeId) : Prop where
  /-- Buffer, statistics and age of any other link. -/
  links : ∀ key, key ≠ n.linkTo peer → m.links.find? key = n.links.find? key
  sessions : ∀ key, key ≠ n.linkTo peer → m.charger.session? key = n.charger.session? key
  queues : ∀ hop, hop ≠ peer → m.queues.find? hop = n.queues.find? hop
  deadlines : ∀ packet d, d.link ≠ n.linkTo peer →
    (m.deadlines.find? packet = some d ↔ n.deadlines.find? packet = some d)
  /-- A timer stays unless its number is noted of one that hangs on the link. -/
  timers : ∀ e, (∀ t, t.HangsOn (n.linkTo peer) → n.noted t ≠ some e.id) →
    (e ∈ m.agenda.entries ↔ e ∈ n.agenda.entries)
  appraisals : ∀ route trafficClass, route.nextHop ≠ peer →
    m.routing.appraisals.find? (route, trafficClass) =
      n.routing.appraisals.find? (route, trafficClass)
  /-- No role gains or loses its protocol. -/
  installed : m.protocols.installed = n.protocols.installed
  /-- The proactive protocol keeps its other routes and its random stream. -/
  advertised : ∀ t, n.protocols.proactive = some t → ∃ routes,
    m.protocols.proactive = some { t with routes } ∧
      ∀ route, route.nextHop ≠ peer → routes.find? route = t.routes.find? route
  replied : ∀ t, n.protocols.reactive = some t → ∃ routes,
    m.protocols.reactive = some { t with routes } ∧
      ∀ route, route.nextHop ≠ peer → routes.find? route = t.routes.find? route
  /-- Marks, epoch, record, transport and all else are as they were. -/
  rest : ∃ links sessions queues deadlines agenda appraisals protocols, m = { n with
    links, queues, deadlines, agenda, protocols
    charger := { n.charger with sessions }
    routing := { n.routing with appraisals } }

variable {n : Node} {peer : NodeId}

/-! ## What is cleared -/

/-- Routes over a next hop are judged by the link to it. -/
theorem link_eq_iff (hhome : n.routing.home = n.id) (route : Route) :
    route.link n.routing.home = n.linkTo peer ↔ route.nextHop = peer := by
  rw [hhome]
  exact ⟨LinkKey.join_inj, congrArg (LinkKey.join n.id)⟩

theorem clear_teardown (hhome : n.routing.home = n.id) (peer : NodeId) :
    (n.teardown peer).2.Clear peer := by
  obtain ⟨agenda, hm⟩ := n.exists_teardown peer
  rw [hm]
  refine ⟨?_, ?_, ?_, ?_, ?_, ?_, ?_⟩
  · exact (Table.find?_erase _ _ _).trans (if_pos rfl)
  · exact (Table.find?_erase _ _ _).trans (if_pos rfl)
  · exact (Table.find?_erase _ _ _).trans (if_pos rfl)
  · intro packet d hd
    rw [Deadlines.find?_dropLink, Option.filter_eq_some_iff] at hd
    exact of_decide_eq_true hd.2
  · intro route trafficClass a ha hpeer
    rw [KeyAware.forgetLink, Table.find?_filter, Option.filter_eq_some_iff] at ha
    exact of_decide_eq_true ha.2 ((link_eq_iff hhome route).2 hpeer)
  · intro t ht route e he
    obtain ⟨_, hremoved, rfl⟩ := Option.map_eq_some_iff.1 ht
    obtain ⟨t, -, rfl⟩ := Option.map_eq_some_iff.1 hremoved
    rw [DistanceVector.removeNextHop, Table.find?_filter, Option.filter_eq_some_iff] at he
    exact of_decide_eq_true he.2
  · intro t ht route e he
    obtain ⟨_, hremoved, rfl⟩ := Option.map_eq_some_iff.1 ht
    obtain ⟨t, -, rfl⟩ := Option.map_eq_some_iff.1 hremoved
    rw [OnDemand.removeNextHop, Table.find?_filter, Option.filter_eq_some_iff] at he
    exact of_decide_eq_true he.2

/-- Neither protocol offers a route over the peer, at any time. -/
theorem Clear.nextHop_ne (h : n.Clear peer) {role : Role} {destination : NodeId} {now : Millis}
    {cs : List Candidate} {q : Protocols}
    (hcs : n.protocols.candidates role destination now = .ok (cs, q)) :
    ∀ c ∈ cs, c.nextHop ≠ peer :=
  fun _ => Protocols.nextHop_ne_of_candidates hcs h.advertised h.replied

/-- Where a link is down, with no session, packet or deadline of it left, routes are all that is
cleared. -/
theorem teardown_of_down (hlink : n.links.find? (n.linkTo peer) = none)
    (hsession : n.charger.session? (n.linkTo peer) = none) (hqueue : n.queues.find? peer = none)
    (hdeadlines : ∀ packet d, n.deadlines.find? packet = some d → d.link ≠ n.linkTo peer) :
    n.teardown peer = (false, { n with
      routing := (n.routing.forgetLink (n.linkTo peer)).2
      protocols := (n.protocols.removeNextHop peer).2 }) := by
  have hcharger : n.charger.cancel (n.linkTo peer) = (n.charger, none) := by
    rw [Charger.cancel, Table.erase_eq_self hsession,
      show n.charger.sessions.find? (n.linkTo peer) = none from hsession]
  have htimers : n.deadlines.timersOf (n.linkTo peer) = [] := by
    refine List.eq_nil_iff_forall_not_mem.2 fun t ht => ?_
    obtain ⟨packet, hp⟩ := Deadlines.mem_timersOf.1 ht
    exact hdeadlines packet _ hp rfl
  have hkept : n.deadlines.dropLink (n.linkTo peer) = n.deadlines :=
    Table.filter_eq_self fun packet d hd => decide_eq_true (hdeadlines packet d hd)
  unfold teardown
  simp only [hcharger, htimers, hkept, Option.bind_none, cancelTimer, List.foldl_nil,
    Table.erase_eq_self hqueue, Table.erase_eq_self hlink, Table.contains_eq_isSome, hlink,
    Option.isSome_none]

/-- Where nothing is left of a link, nothing more is cleared. -/
theorem Clear.teardown_eq (h : n.Clear peer) (hhome : n.routing.home = n.id) :
    n.teardown peer = (false, n) := by
  have hrouting : (n.routing.forgetLink (n.linkTo peer)).2 = n.routing := by
    have hkept : n.routing.appraisals.filter
        (fun r _ => r.1.link n.routing.home ≠ n.linkTo peer) = n.routing.appraisals :=
      Table.filter_eq_self fun r a ha => decide_eq_true fun hlink =>
        h.appraisals r.1 r.2 a ha ((link_eq_iff hhome r.1).1 hlink)
    rw [KeyAware.forgetLink, hkept]
  have hproactive : n.protocols.proactive.map (fun t => (t.removeNextHop peer).2) =
      n.protocols.proactive := by
    cases ht : n.protocols.proactive with
    | none => rfl
    | some t =>
      rw [Option.map_some, DistanceVector.removeNextHop, Table.filter_eq_self fun r e he =>
        decide_eq_true (h.advertised t ht r e he)]
  have hreactive : n.protocols.reactive.map (fun t => (t.removeNextHop peer).2) =
      n.protocols.reactive := by
    cases ht : n.protocols.reactive with
    | none => rfl
    | some t =>
      rw [Option.map_some, OnDemand.removeNextHop, Table.filter_eq_self fun r e he =>
        decide_eq_true (h.replied t ht r e he)]
  have hprotocols : (n.protocols.removeNextHop peer).2 = n.protocols := by
    simp only [Protocols.removeNextHop, Option.map_map, Function.comp_def, hproactive, hreactive]
  rw [teardown_of_down h.link h.session h.queue h.deadlines, hrouting, hprotocols]

/-! ## What is left -/

theorem keepsOthers_teardown (hhome : n.routing.home = n.id) (peer : NodeId) :
    n.KeepsOthers (n.teardown peer).2 peer := by
  have hdisarmed := n.disarmed_teardown peer
  obtain ⟨agenda, hm⟩ := n.exists_teardown peer
  have htimers : ∀ e, (∀ t, t.HangsOn (n.linkTo peer) → n.noted t ≠ some e.id) →
      (e ∈ (n.teardown peer).2.agenda.entries ↔ e ∈ n.agenda.entries) := fun e he =>
    (hdisarmed.entries e).trans (and_iff_left he)
  rw [hm] at htimers ⊢
  refine ⟨?_, ?_, ?_, ?_, htimers, ?_, ?_, ?_, ?_, ⟨_, _, _, _, _, _, _, rfl⟩⟩
  · exact fun key hne => (Table.find?_erase _ _ _).trans (if_neg hne)
  · exact fun key hne => (Table.find?_erase _ _ _).trans (if_neg hne)
  · exact fun hop hne => (Table.find?_erase _ _ _).trans (if_neg hne)
  · intro packet d hne
    rw [Deadlines.find?_dropLink, Option.filter_eq_some_iff]
    exact and_iff_left (decide_eq_true hne)
  · intro route trafficClass hne
    refine Table.find?_filter_of_pos fun _ => decide_eq_true fun hlink => hne ?_
    exact (link_eq_iff hhome route).1 hlink
  · exact n.protocols.installed_removeNextHop peer
  · intro t ht
    refine ⟨t.routes.filter (fun r _ => r.nextHop ≠ peer), ?_, fun route hne => ?_⟩
    · simp only [Protocols.removeNextHop, ht, Option.map_some, DistanceVector.removeNextHop]
    · exact Table.find?_filter_of_pos fun _ => decide_eq_true hne
  · intro t ht
    refine ⟨t.routes.filter (fun r _ => r.nextHop ≠ peer), ?_, fun route hne => ?_⟩
    · simp only [Protocols.removeNextHop, ht, Option.map_some, OnDemand.removeNextHop]
    · exact Table.find?_filter_of_pos fun _ => decide_eq_true hne

/-- A timer that is noted and does not hang on the link stays pending, and stays noted. -/
theorem pending_teardown (h : n.clock.Numbered) (peer : NodeId) (t : Timer) (id : TimerId)
    (ht : n.noted t = some id) (hlink : ¬ t.HangsOn (n.linkTo peer)) :
    (n.teardown peer).2.noted t = some id ∧ ∀ e, e.id = id →
      (e ∈ (n.teardown peer).2.agenda.entries ↔ e ∈ n.agenda.entries) := by
  have hdisarmed := n.disarmed_teardown peer
  refine ⟨(hdisarmed.others t hlink).trans ht, ?_⟩
  rintro e rfl
  refine (hdisarmed.entries e).trans (and_iff_left fun u hu hnoted => hlink ?_)
  exact h.single t u e.id ht hnoted ▸ hu

/-! ## Nodes that calls lead to -/

/-- The link to a peer is torn down on a node that any calls have led to. It was there exactly if
the answer is yes. Nothing on the node belongs to it afterwards, no candidate leads over the peer,
and to tear it down again does nothing. What belongs to other links is as it was, and so are their
timers, where no number has been given out again. -/
theorem teardown_outcome (h : n.Reachable) (peer : NodeId) :
    ∃ m, n.teardown peer = ((n.links.find? (n.linkTo peer)).isSome, m) ∧
      m.Clear peer ∧
      (∀ role destination now cs q,
        m.protocols.candidates role destination now = .ok (cs, q) → ∀ c ∈ cs, c.nextHop ≠ peer) ∧
      m.teardown peer = (false, m) ∧
      n.KeepsOthers m peer ∧
      (n.Accessible → ∀ t id, n.noted t = some id → ¬ t.HangsOn (n.linkTo peer) →
        m.noted t = some id ∧ ∀ e, e.id = id → (e ∈ m.agenda.entries ↔ e ∈ n.agenda.entries)) := by
  have hhome : n.routing.home = n.id := congrArg Settings.home h.sound.configured
  have hclear := clear_teardown hhome peer
  have hkept := keepsOthers_teardown hhome peer
  have hpending := fun haccessible : n.Accessible => pending_teardown haccessible.numbered peer
  obtain ⟨agenda, hm⟩ := n.exists_teardown peer
  rw [hm] at hclear hkept hpending
  exact ⟨_, hm, hclear, fun _ _ _ _ _ => hclear.nextHop_ne, hclear.teardown_eq hhome, hkept,
    hpending⟩

/-- Of two links the one goes with its session, its packet and its deadline; the session of the
other and the tick stay. -/
theorem teardown_outcome_pair : ∃ (n m : Node) (id : TimerId), n.Accessible ∧
    (n.charger.session? (.join ⟨1⟩ ⟨2⟩)).isSome = true ∧ (n.queues.find? ⟨2⟩).isSome = true ∧
    (n.deadlines.find? ⟨7⟩).isSome = true ∧ n.noted .tick = some id ∧
    n.teardown ⟨2⟩ = (true, m) ∧ m.Clear ⟨2⟩ ∧ m.teardown ⟨2⟩ = (false, m) ∧ n.KeepsOthers m ⟨2⟩ ∧
    (m.charger.session? (.join ⟨1⟩ ⟨3⟩)).isSome = true ∧ m.noted .tick = some id := by
  obtain ⟨n, hn, hid, hlink, hsession, hqueue, hdeadline, hother, htick⟩ :
      ∃ n, create .pair .hesitant = .ok n ∧
        let n := (n.run Call.sentInCharge).apply (.establish ⟨3⟩ ⟨10, 40, 100, 30⟩ 100)
        n.id = ⟨1⟩ ∧ (n.links.find? (.join ⟨1⟩ ⟨2⟩)).isSome = true ∧
        (n.charger.session? (.join ⟨1⟩ ⟨2⟩)).isSome = true ∧
        (n.queues.find? ⟨2⟩).isSome = true ∧ (n.deadlines.find? ⟨7⟩).isSome = true ∧
        (n.charger.session? (.join ⟨1⟩ ⟨3⟩)).isSome = true ∧ (n.noted .tick).isSome = true :=
    ⟨_, rfl, by decide +kernel, by decide +kernel, by decide +kernel, by decide +kernel,
      by decide +kernel, by decide +kernel, by decide +kernel⟩
  have hcalls : ((n.run Call.sentInCharge).apply
      (.establish ⟨3⟩ ⟨10, 40, 100, 30⟩ 100)).Accessible := by
    have hstarted := (Accessible.created hn).called (.start 0) trivial
    have hcharged := hstarted.called (.chargeDelivered ⟨2⟩ 30 100) trivial
    have hsent := hcharged.called (.sendSecured ⟨⟨7⟩, ⟨2⟩, 5⟩ (some 50) 100) trivial
    exact hsent.called (.establish ⟨3⟩ ⟨10, 40, 100, 30⟩ 100) trivial
  generalize (n.run Call.sentInCharge).apply (.establish ⟨3⟩ ⟨10, 40, 100, 30⟩ 100) = k at *
  have hkey : ∀ peer, k.linkTo peer = .join ⟨1⟩ peer := fun peer => by rw [linkTo, hid]
  obtain ⟨m, hm, hclear, -, hagain, hkept, hpending⟩ := teardown_outcome hcalls.reachable ⟨2⟩
  obtain ⟨id, hnoted⟩ := Option.isSome_iff_exists.1 htick
  rw [hkey, hlink] at hm
  refine ⟨k, m, id, hcalls, hsession, hqueue, hdeadline, hnoted, hm, hclear, hagain, hkept, ?_,
    (hpending hcalls .tick id hnoted ?_).1⟩
  · rw [hkept.sessions _ (by rw [hkey]; decide)]
    exact hother
  · rintro (h | ⟨packet, h⟩) <;> cases h

end Node

end KeyReserve
