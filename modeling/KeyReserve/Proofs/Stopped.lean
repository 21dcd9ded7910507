import KeyReserve.Proofs.Teardown

/-!
# Stopped nodes

A node that has stopped refuses to send packets and to bring links up. Ticks, timers and word from
the transport it does not refuse, but they find nothing left to act on: everything that the node
stores belongs to links that are up, and the node has torn down all of them in order to stop.

## Main definitions

* `Node.Inert`: the node has stopped, and holds nothing that could be charged, sent or dropped;
* `Node.Idles`: what is left for calls to do.

## Main results

* `Node.Inert.idles`: what calls do to an inert node;
* `Node.inert_of_stopped`: a node that has stopped is inert;
* `Node.stopped_run`: no call after the node has stopped reaches the transport, sets a timer or adds
  to the record.
-/

namespace KeyReserve

namespace Node

/-- The node has stopped, and holds nothing that could be charged, sent or dropped. -/
structure Inert (n : Node) : Prop where
  phase : n.phase = .stopped
  links : n.links = .empty
  sessions : n.charger.sessions = .empty
  queues : n.queues = .empty
  deadlines : n.deadlines = .empty
  tick : n.tickTimer = none

/-- What is left for calls to do: the protocols may learn and forget routes, the record may be read,
and whoever owns the agenda may change it. -/
inductive Idles (n : Node) : Call → Node → Prop where
  | routes (c : Call) (protocols : Protocols) (routing : KeyAware) :
      Idles n c { n with protocols, routing }
  | read : Idles n .drainEvents { n with events := [] }
  | rearranged (agenda : Agenda Timer) : Idles n (.rearrange agenda) { n with agenda }

variable {n m : Node}

/-! ## Calls on an inert node -/

namespace Idles

variable {c : Call}

theorem of_eq (h : n.apply c = n) : n.Idles c (n.apply c) := by
  rw [h]
  exact .routes c n.protocols n.routing

theorem inert (h : n.Idles c m) (hn : n.Inert) : m.Inert := by
  cases h <;> exact ⟨hn.phase, hn.links, hn.sessions, hn.queues, hn.deadlines, hn.tick⟩

theorem transport (h : n.Idles c m) : m.transport = n.transport := by
  cases h <;> rfl

/-- Nothing is added to the record. -/
theorem events (h : n.Idles c m) : m.events.drop n.events.length = [] := by
  cases h with
  | routes => exact List.drop_length
  | read => exact List.drop_nil
  | rearranged => exact List.drop_length

theorem agenda (h : n.Idles c m) (hc : ∀ agenda, c ≠ .rearrange agenda) : m.agenda = n.agenda := by
  cases h with
  | routes => rfl
  | read => rfl
  | rearranged agenda => exact absurd rfl (hc agenda)

end Idles

namespace Inert

theorem not_running (h : n.Inert) : n.phase ≠ .running := by
  rw [h.phase]
  nofun

theorem session?_eq_none (h : n.Inert) (key : LinkKey) : n.charger.session? key = none := by
  rw [Charger.session?, h.sessions]
  rfl

theorem teardown_eq (h : n.Inert) (peer : NodeId) :
    (n.teardown peer).2 = { n with
      routing := (n.routing.forgetLink (n.linkTo peer)).2
      protocols := (n.protocols.removeNextHop peer).2 } := by
  have hdeadlines : ∀ packet d, n.deadlines.find? packet = some d → d.link ≠ n.linkTo peer := by
    rw [h.deadlines]
    nofun
  rw [teardown_of_down (h.links ▸ rfl) (h.session?_eq_none _) (h.queues ▸ rfl) hdeadlines]

theorem tick_eq (h : n.Inert) (now : Millis) :
    n.tick now = { n with
      protocols := (n.protocols.purge now).2
      routing := (n.routing.maybeNewEpoch now).2 } := by
  have hkeys : n.links.keys = [] := h.links ▸ rfl
  rw [Node.tick, hkeys]
  rfl

theorem onTimer_eq (h : n.Inert) (timer : Timer) (now : Millis) : n.onTimer timer now = n := by
  cases timer with
  | chargingRound link =>
    have hnone : n.charger.sessions.find? link = none := h.session?_eq_none link
    simp only [onTimer, chargingRound, Charger.takeFollowUp, Charger.nextRound, hnone,
      Option.map_none]
  | deadline link packet =>
    rw [onTimer, expireWaiting, h.deadlines]
    rfl
  | tick =>
    have hfired : { n with tickTimer := none } = n := by
      rw [← h.tick]
    rw [onTimer, hfired]
    exact if_neg h.not_running

theorem linkReady_eq (h : n.Inert) (nextHop : NodeId) (now : Millis) :
    (n.linkReady nextHop now).2 = n := by
  have hnone : n.queues.find? nextHop = none := h.queues ▸ rfl
  have hset : n.setQueue nextHop [] = n := by
    rw [setQueue, List.isEmpty_nil, if_pos rfl, Table.erase_eq_self hnone]
  have hqueue : n.queue nextHop = [] := by
    rw [queue, hnone]
    rfl
  rw [linkReady, hset, hqueue]
  exact hset

/-- A call on a node that is inert comes to what is left for calls to do. -/
theorem idles (h : n.Inert) (c : Call) : n.Idles c (n.apply c) := by
  cases c with
  | start now =>
    refine .of_eq ?_
    rw [apply, start, if_pos (by rw [h.phase]; nofun)]
  | establish peer bounds now =>
    refine .of_eq ?_
    rw [apply, establish, if_pos h.phase]
  | teardown peer =>
    rw [apply, h.teardown_eq]
    exact .routes _ _ _
  | shutdown =>
    refine .of_eq ?_
    rw [apply, shutdown, if_pos h.phase]
  | tick now =>
    rw [apply, h.tick_eq]
    exact .routes _ _ _
  | timer timer now => exact .of_eq (h.onTimer_eq timer now)
  | sendSecured packet maxDelay now =>
    refine .of_eq ?_
    rw [apply, sendSecured, if_pos h.not_running]
  | sendBestEffort packet now =>
    refine .of_eq ?_
    rw [apply, sendBestEffort, if_pos h.not_running]
  | linkReady nextHop now => exact .of_eq (h.linkReady_eq nextHop now)
  | chargeDelivered peer bytes now =>
    refine .of_eq ?_
    rw [apply, chargeDelivered, h.links]
    rfl
  | chargeFailed peer reason =>
    refine .of_eq ?_
    rw [apply, chargeFailed, abandonCharging, Charger.abandon, h.sessions]
    rfl
  | advertisement sender destination hops seq now =>
    unfold apply onAdvertisement
    simp only
    split
    · exact .routes _ n.protocols n.routing
    · exact .routes _ _ n.routing
  | routeReply nextHop destination hops seq now =>
    unfold apply onRouteReply
    simp only
    split
    · exact .routes _ n.protocols n.routing
    · exact .routes _ _ n.routing
  | drainEvents => exact .read
  | rearrange agenda => exact .rearranged agenda

/-- An inert node stays so, whatever is called, and neither asks the transport for anything nor adds
to the record. -/
theorem run (h : n.Inert) (cs : List Call) :
    (n.run cs).Inert ∧ (n.run cs).transport = n.transport ∧ n.log cs = [] := by
  induction cs generalizing n with
  | nil => exact ⟨h, rfl, rfl⟩
  | cons c cs ih =>
    have hidles := h.idles c
    obtain ⟨hinert, htransport, hlog⟩ := ih (hidles.inert h)
    refine ⟨hinert, htransport.trans hidles.transport, ?_⟩
    rw [log, hlog, List.append_nil]
    exact hidles.events

end Inert

/-! ## Nodes that stop -/

theorem phase_shutdown (n : Node) : n.shutdown.phase = .stopped := by
  unfold shutdown
  split
  · assumption
  · rfl

theorem phase_apply {c : Call} (hstart : ∀ now, c ≠ .start now) (hstop : c ≠ .shutdown) :
    (n.apply c).phase = n.phase := by
  by_cases hagenda : ∃ agenda, c = .rearrange agenda
  · obtain ⟨agenda, rfl⟩ := hagenda
    rfl
  · exact (n.advances_apply hstart hstop fun agenda ha => hagenda ⟨agenda, ha⟩).phase

/-- A node stops by being shut down, and not otherwise. -/
theorem eq_shutdown_of_stops {c : Call} (hbefore : n.phase ≠ .stopped)
    (hafter : (n.apply c).phase = .stopped) : c = .shutdown := by
  by_contra hstop
  by_cases hstart : ∃ now, c = .start now
  · obtain ⟨now, rfl⟩ := hstart
    rw [apply, start] at hafter
    split at hafter
    · exact hbefore hafter
    · rw [show (scheduleTick _ now).phase = _ from (steps_scheduleTick _ now).phase_eq] at hafter
      cases hafter
  · rw [phase_apply (fun now hc => hstart ⟨now, hc⟩) hstop] at hafter
    exact hbefore hafter

/-- Nothing that is stored outlasts the links. -/
theorem Tidy.inert (h : n.Tidy) (hphase : n.phase = .stopped) (htick : n.tickTimer = none)
    (hdown : ∀ key, n.links.contains key = false) : n.Inert := by
  have hnone : ∀ key l, n.links.find? key ≠ some l := by
    intro key l hl
    have hup : n.links.contains key = true := congrArg Option.isSome hl
    cases (hdown key).symm.trans hup
  refine ⟨hphase, Table.eq_empty hnone, Table.eq_empty ?_, Table.eq_empty ?_, Table.eq_empty ?_,
    htick⟩
  · intro key s hs
    obtain ⟨l, hl, -⟩ := h.sessions key s hs
    exact hnone key l hl
  · intro hop ps hps
    obtain ⟨-, ⟨l, hl⟩, -⟩ := h.queues hop ps hps
    exact hnone _ l hl
  · intro packet d hd
    obtain ⟨l, hl⟩ := h.deadlines packet d hd
    exact hnone _ l hl

/-- All links go with a node that is shut down. -/
theorem contains_shutdown (h : n.Sound) (hphase : n.phase ≠ .stopped) (key : LinkKey) :
    n.shutdown.links.contains key = false := by
  have hdown := Sound.contains_teardownAll_keys n h key
  rw [shutdown, if_neg hphase]
  simp only
  cases (n.teardownAll n.links.keys).tickTimer <;> exact hdown

/-- Any run has a node inert once the node has stopped. -/
theorem inert_of_stopped {config : Config} {t : Transport} (h : create config t = .ok n)
    (calls : List Call) (hphase : (n.run calls).phase = .stopped) : (n.run calls).Inert := by
  induction calls using List.reverseRecOn with
  | nil =>
    unfold create at h
    split at h <;> cases h
    cases hphase
  | append_singleton cs c ih =>
    have htidy := tidy_run h (cs ++ [c])
    rw [run_concat] at hphase htidy ⊢
    by_cases hbefore : (n.run cs).phase = .stopped
    · exact ((ih hbefore).idles c).inert (ih hbefore)
    · obtain rfl := eq_shutdown_of_stops hbefore hphase
      refine htidy.inert hphase ?_ (contains_shutdown ((sound_create h).run cs) hbefore)
      rw [apply, shutdown, if_neg hbefore]

/-- A node made from any configuration is driven by any calls, shut down and driven further. It has
stopped and holds nothing. None of the calls after the shutdown reaches the transport or adds to the
record, and no further call sets a timer or takes one back. -/
theorem stopped_run {config : Config} {t : Transport} (h : create config t = .ok n)
    (before after : List Call) :
    ∃ m k, n.run (before ++ [.shutdown]) = m ∧ m.run after = k ∧ k.Inert ∧
      k.transport = m.transport ∧ m.log after = [] ∧
      ∀ c, (∀ agenda, c ≠ .rearrange agenda) → (k.apply c).agenda = k.agenda := by
  have hphase : (n.run (before ++ [.shutdown])).phase = .stopped := by
    rw [run_concat]
    exact phase_shutdown _
  obtain ⟨hinert, htransport, hlog⟩ := (inert_of_stopped h _ hphase).run after
  exact ⟨_, _, rfl, rfl, hinert, htransport, hlog, fun c => (hinert.idles c).agenda⟩

end Node

/-- What would move a running node to charge, send or drop something. -/
def Call.wakeUps : List Call :=
  [.tick 200, .timer .tick 200, .timer (.chargingRound (.join ⟨1⟩ ⟨2⟩)) 200,
    .timer (.deadline (.join ⟨1⟩ ⟨2⟩) ⟨7⟩) 200, .chargeDelivered ⟨2⟩ 30 200, .linkReady ⟨2⟩ 200,
    .start 300]

namespace Node

/-- A node is shut down with a session open and a packet waiting, and called again. -/
theorem stopped_run_pair : ∃ n m k, create .pair .hesitant = .ok n ∧
    ((n.run Call.sentInCharge).charger.session? (.join ⟨1⟩ ⟨2⟩)).isSome = true ∧
    ((n.run Call.sentInCharge).queues.find? ⟨2⟩).isSome = true ∧
    n.run (Call.sentInCharge ++ [.shutdown]) = m ∧ m.run Call.wakeUps = k ∧ k.Inert ∧
    k.transport = m.transport ∧ m.log Call.wakeUps = [] ∧
    (k.apply (.establish ⟨3⟩ ⟨10, 40, 100, 30⟩ 400)).agenda = k.agenda := by
  obtain ⟨n, hn, hsession, hqueue⟩ : ∃ n, create .pair .hesitant = .ok n ∧
      ((n.run Call.sentInCharge).charger.session? (.join ⟨1⟩ ⟨2⟩)).isSome = true ∧
      ((n.run Call.sentInCharge).queues.find? ⟨2⟩).isSome = true :=
    ⟨_, rfl, by decide +kernel, by decide +kernel⟩
  obtain ⟨m, k, hm, hk, hinert, htransport, hlog, hagenda⟩ :=
    stopped_run hn Call.sentInCharge Call.wakeUps
  exact ⟨n, m, k, hn, hsession, hqueue, hm, hk, hinert, htransport, hlog, hagenda _ nofun⟩

end Node

end KeyReserve
