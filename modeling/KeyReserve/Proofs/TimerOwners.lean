import KeyReserve.Proofs.PacketLedger
import KeyReserve.Proofs.SupplyCalls
import KeyReserve.Proofs.Turns

/-!
# Timers of sessions and ticks, and the rounds asked for

On a node that is driven on its agenda, a timer of a round is pending for a session that has noted
it and for no other, and a tick while the node runs and is to tick. No open session is left waiting
for nothing: it has the timer of its next round, or the transport has taken a request for it and has
delivered nothing since.

## Main definitions

* `Agenda.idsOf`: the pending timers of one kind;
* `Node.Ticking`: a tick is set while the node runs and is to tick;
* `Node.Awaits`: the transport has taken a request for a session, and owes the delivery;
* `Node.AsksRounds`: the rounds that the transport is asked for between two states of a node.

## Main results

* `Clock.Kept.idsOf_eq`: the pending timers of one kind are the one that is noted;
* `Node.Ticking.turn`: what keeps the tick;
* `Node.awaits_drive`: an open session without a timer awaits a delivery;
* `Node.charging_drive`: timers, sessions and requests after any turns.
-/

namespace KeyReserve

/-- The numbers of the pending entries for one thing. -/
def Agenda.idsOf {α : Type} [DecidableEq α] (a : Agenda α) (event : α) : List TimerId :=
  (a.entries.filter (·.event = event)).map (·.id)

namespace Clock

variable {P Q S : Timer → Prop} {c c' : Clock}

/-- Of a kind of which all pending timers are noted, the one that is noted is pending. -/
theorem Kept.idsOf_eq (h : c.Kept Q) {t : Timer} (ht : Q t) :
    c.agenda.idsOf t = (c.noted t).toList := by
  cases hnoted : c.noted t with
  | none =>
    have hnot : c.agenda.entries.filter (·.event = t) = [] := by
      rw [List.filter_eq_nil_iff]
      intro e he hevent
      obtain rfl := of_decide_eq_true hevent
      cases hnoted.symm.trans (h.owned e he ht)
    rw [Agenda.idsOf, hnot]
    rfl
  | some id =>
    obtain ⟨due, hmem⟩ := h.pending t id hnoted
    have hone : c.agenda.entries.filter (·.event = t) = [⟨due, id, t⟩] := by
      rw [← List.perm_singleton]
      refine (List.perm_ext_iff_of_nodup (c.agenda.nodup_entries.filter _)
        (List.nodup_singleton _)).2 fun e => ?_
      rw [List.mem_filter, decide_eq_true_eq, List.mem_singleton]
      constructor
      · rintro ⟨he, rfl⟩
        exact h.distinct e he _ hmem (Option.some.inj ((h.owned e he ht).symm.trans hnoted))
      · rintro rfl
        exact ⟨hmem, rfl⟩
    rw [Agenda.idsOf, hone]
    rfl

/-- The phase and the tick are as they were. -/
structure Steady (c c' : Clock) : Prop where
  phase : c'.phase = c.phase
  tick : c'.noted .tick = c.noted .tick

theorem Steady.trans {d : Clock} (h : Steady c c') (h' : Steady c' d) : Steady c d :=
  ⟨h'.phase.trans h.phase, h'.tick.trans h.tick⟩

theorem Steps.steady (h : Steps Timer.AsksRound c c') : Steady c c' :=
  ⟨h.phase_eq, h.noted_eq not_false⟩

theorem Disarmed.steady (h : Disarmed S c c') (hS : ¬ S .tick) : Steady c c' :=
  ⟨h.phase, h.others .tick hS⟩

theorem Waits.steady {p : SecuredPacket} (h : Waits p c c') : Steady c c' := by
  cases h with
  | never => exact ⟨rfl, rfl⟩
  | «until» _ ha => exact ⟨ha.phase, ha.others .tick nofun⟩

end Clock

/-- The link of a pair comes up and is charged, and the timer of the next round fires. -/
def Turn.roundFired : List Turn :=
  [.call (.start 10) rfl, .call (.chargeDelivered ⟨2⟩ 30 100) rfl, .fire 200]

/-- The turn delivers key material to the link of a node. -/
def Turn.feeds (t : Turn) (n : Node) (key : LinkKey) : Prop :=
  match t with
  | .call c _ => c.feeds n key
  | .fire _ => False

namespace Node

open Clock

variable {n m : Node}

/-! ## Settings -/

theorem settings_drive (h : n.Sound) (ts : List Turn) : (n.drive ts).settings = n.settings := by
  obtain ⟨cs, hcs⟩ := n.exists_run ts
  exact hcs ▸ h.settings_run cs

theorem settings_turn (h : n.Sound) (t : Turn) : (n.turn t).settings = n.settings :=
  settings_drive h [t]

theorem linkTo_drive (h : n.Sound) (ts : List Turn) : (n.drive ts).linkTo = n.linkTo := by
  funext peer
  rw [linkTo, linkTo, show (n.drive ts).id = n.id from congrArg Settings.id (settings_drive h ts)]

theorem feeds_drive (h : n.Sound) (ts : List Turn) (t : Turn) (key : LinkKey) :
    t.feeds (n.drive ts) key ↔ t.feeds n key := by
  cases t with
  | call c _ =>
    show (∃ peer bytes now, _ ∧ key = (n.drive ts).linkTo peer) ↔ _
    rw [linkTo_drive h]
    rfl
  | fire now => exact Iff.rfl

/-! ## The tick -/

/-- A tick is set while the node runs and is to tick. -/
def Ticking (n : Node) : Prop :=
  n.tickTimer.isSome = true ↔ n.phase = .running ∧ 0 < n.config.node.tickInterval

namespace Ticking

theorem of_steady (h : n.Ticking) (hs : Steady n.clock m.clock) (hconfig : m.config = n.config) :
    m.Ticking := by
  unfold Ticking
  rw [show m.tickTimer = n.tickTimer from hs.tick, show m.phase = n.phase from hs.phase, hconfig]
  exact h

theorem scheduleTick (hrun : n.phase = .running) (hnone : n.tickTimer = none) (now : Millis) :
    (n.scheduleTick now).Ticking := by
  unfold Ticking Node.scheduleTick
  by_cases hpos : 0 < n.config.node.tickInterval
  · simp only [hpos, hnone, decide_true, Option.isNone_none, Bool.and_self, if_true]
    exact ⟨fun _ => ⟨hrun, hpos⟩, fun _ => rfl⟩
  · simp only [hpos, decide_false, Bool.false_and, Bool.false_eq_true, if_false, hnone]
    exact ⟨nofun, fun h => h.2.elim⟩

theorem start (h : n.Ticking) (now : Millis) : (n.start now).2.Ticking := by
  unfold Node.start
  split
  · exact h
  · rename_i hphase
    have hcreated : n.phase = .created := not_not.1 hphase
    have hs := (n.steps_bringUpAll now n.config.links).steady
    have hnone : n.tickTimer = none := by
      refine Option.not_isSome_iff_eq_none.1 fun hset => ?_
      cases hcreated.symm.trans (h.1 hset).1
    exact scheduleTick (n := { (n.bringUpAll now n.config.links).2 with phase := .running }) rfl
      (hs.tick.trans hnone) now

theorem shutdown (h : n.Ticking) : n.shutdown.Ticking := by
  unfold Node.shutdown
  split
  · exact h
  · exact ⟨nofun, fun h => nomatch h.1⟩

end Ticking

theorem steady_expireWaiting (link : LinkKey) (packet : PacketId) (now : Millis) :
    Steady n.clock (n.expireWaiting link packet now).clock := by
  rcases n.expireWaiting_cases link packet now with hsame | hforgot | ⟨p, due, -, harm⟩
  · rw [hsame]
    exact ⟨rfl, rfl⟩
  · rw [hforgot]
    exact ⟨rfl, rfl⟩
  · exact ⟨harm.phase, harm.others .tick nofun⟩

theorem Sends.steady (h : n.Sends m) : Steady n.clock m.clock := by
  obtain ⟨c, hs, ⟨hc, -⟩ | ⟨p, -, hw, -⟩⟩ := h
  · exact hc ▸ hs.steady
  · exact hs.steady.trans hw.steady

theorem steady_linkReady (hop : NodeId) (now : Millis) :
    Steady n.clock (n.linkReady hop now).2.clock := by
  obtain ⟨gone, -, hd⟩ := (n.setQueue hop []).disarmed_sendWaiting now (n.queue hop)
  have hsteady := hd.steady (by rintro ⟨p, -, link, ht⟩; cases ht)
  exact ⟨hsteady.phase, hsteady.tick⟩

/-- The tick that fires is set again while the node runs; no other timer touches it. -/
theorem Ticking.fired (h : n.Ticking) (ht : n.watch.Timed) {e : Agenda.Entry Timer}
    {a : Agenda Timer} (hpop : n.agenda.pop = some (e, a)) (now : Millis)
    (hconfig : ({ n with agenda := a }.onTimer e.event now).config = n.config) :
    ({ n with agenda := a }.onTimer e.event now).Ticking := by
  have hmem : e ∈ n.clock.agenda.entries := by
    show e ∈ n.agenda.entries
    exact Agenda.pop_eq_some hpop ▸ List.mem_cons_self
  generalize hevent : e.event = timer at *
  cases timer with
  | chargingRound link =>
    have hown := ht.kept.owned e hmem (hevent ▸ not_false)
    exact h.of_steady (n.steps_firedRound ht.kept hpop hevent hown now).steady hconfig
  | deadline link packet =>
    have hs := steady_expireWaiting (n := { n with agenda := a }) link packet now
    exact h.of_steady ⟨hs.phase, hs.tick⟩ hconfig
  | tick =>
    have hown : n.tickTimer = some e.id := by
      have hown := ht.kept.owned e hmem (hevent ▸ not_false)
      rwa [hevent] at hown
    have hrun : n.phase = .running := (h.1 (hown ▸ rfl)).1
    have hs := (steps_tick { n with agenda := a, tickTimer := none } now).steady
    unfold onTimer
    simp only
    rw [if_pos hrun]
    exact scheduleTick (hs.phase.trans hrun) hs.tick now

theorem Ticking.turn (h : n.Ticking) (hs : n.Sound) (ht : n.watch.Timed) (t : Turn) :
    (n.turn t).Ticking := by
  have hconfig : (n.turn t).config = n.config := congrArg Settings.config (settings_turn hs t)
  cases t with
  | call c hc =>
    cases c with
    | start now => exact h.start now
    | establish peer bounds now =>
      exact h.of_steady (n.steps_establish peer bounds now).steady hconfig
    | teardown peer =>
      refine h.of_steady ((n.disarmed_teardown peer).steady ?_) hconfig
      rintro (ht | ⟨packet, ht⟩) <;> cases ht
    | shutdown => exact h.shutdown
    | tick now => exact h.of_steady (n.steps_tick now).steady hconfig
    | timer timer now => cases hc
    | sendSecured packet maxDelay now =>
      exact h.of_steady (n.sends_sendSecured packet maxDelay now).steady hconfig
    | sendBestEffort packet now =>
      exact h.of_steady (n.sends_sendBestEffort packet now).steady hconfig
    | linkReady nextHop now => exact h.of_steady (steady_linkReady nextHop now) hconfig
    | chargeDelivered peer bytes now =>
      exact h.of_steady (n.steps_chargeDelivered ht.kept peer bytes now).steady hconfig
    | chargeFailed peer reason =>
      exact h.of_steady (n.steps_abandonCharging _ reason).steady hconfig
    | advertisement sender destination hops seq now =>
      refine h.of_steady ?_ hconfig
      show Steady n.clock (n.onAdvertisement sender destination hops seq now).2.clock
      unfold onAdvertisement
      split <;> exact ⟨rfl, rfl⟩
    | routeReply nextHop destination hops seq now =>
      refine h.of_steady ?_ hconfig
      show Steady n.clock (n.onRouteReply nextHop destination hops seq now).2.clock
      unfold onRouteReply
      split <;> exact ⟨rfl, rfl⟩
    | drainEvents => exact h
    | rearrange agenda => cases hc
  | fire now =>
    unfold Node.turn at hconfig ⊢
    simp only at hconfig ⊢
    cases hpop : n.agenda.pop with
    | none => exact h
    | some next =>
      rw [hpop] at hconfig
      exact h.fired ht hpop now hconfig

theorem ticking_drive (hs : n.Sound) (ht : n.watch.Timed) (h : n.Ticking) (ts : List Turn) :
    (n.drive ts).Ticking := by
  induction ts using List.reverseRecOn with
  | nil => exact h
  | append_singleton ts t ih =>
    rw [drive_concat]
    exact ih.turn (sound_drive hs ts) (timed_drive hs ht ts) t

/-! ## Sessions that stay open -/

open Supply

/-- A turn that delivers nothing to a link reads the record, or serves the link. -/
theorem served_turn (n : Node) (key : LinkKey) {t : Turn} (hfeeds : ¬ t.feeds n key) :
    (n.turn t).supply key = { n.supply key with record := [] } ∨
      Served key n.charger.sendSize (n.supply key) ((n.turn t).supply key) := by
  cases t with
  | call c hc =>
    by_cases hdrain : c = .drainEvents
    · subst hdrain
      exact .inl rfl
    · exact .inr (n.served key hdrain hfeeds)
  | fire now =>
    unfold Node.turn
    simp only
    cases n.agenda.pop with
    | none => exact .inr .still
    | some next => exact .inr (served_onTimer { n with agenda := next.2 } key next.1.event now)

/-- A turn that delivers to a link feeds it. -/
theorem fed_turn (n : Node) (key : LinkKey) {t : Turn} (hfeeds : t.feeds n key) :
    Fed key (n.supply key) ((n.turn t).supply key) := by
  cases t with
  | call c hc => exact n.fed key hfeeds
  | fire now => cases hfeeds

theorem supplied_drive (h : n.Supplied) (ts : List Turn) : (n.drive ts).Supplied := by
  obtain ⟨cs, hcs⟩ := n.exists_run ts
  exact hcs ▸ h.run cs

/-- In one of the turns the transport has taken a request for a session. The session has been as it
is ever since, and nothing has been delivered to its link. -/
def Awaits (n : Node) (ts : List Turn) (link : LinkKey) (s : Session) : Prop :=
  ∃ us t vs, ts = us ++ t :: vs ∧
    Taken link ((n.drive us).supply link) ((n.drive (us ++ [t])).supply link) ∧
    (∀ v ∈ vs, ¬ v.feeds n link) ∧
    ∀ ws, ws <+: vs → (n.drive (us ++ t :: ws)).charger.session? link = some s

/-- A turn that leaves the session as it is and delivers nothing to its link. -/
theorem Awaits.concat {ts : List Turn} {link : LinkKey} {s : Session} (h : n.Awaits ts link s)
    {t : Turn} (hfeeds : ¬ t.feeds n link)
    (hs : (n.drive (ts ++ [t])).charger.session? link = some s) : n.Awaits (ts ++ [t]) link s := by
  obtain ⟨us, u, vs, rfl, htaken, hspared, hopen⟩ := h
  refine ⟨us, u, vs ++ [t], ?_, htaken, ?_, ?_⟩
  · rw [List.append_assoc, List.cons_append]
  · intro v hv
    rcases List.mem_append.1 hv with hv | hv
    · exact hspared v hv
    · exact List.mem_singleton.1 hv ▸ hfeeds
  · intro ws hws
    rcases List.prefix_concat_iff.1 hws with rfl | hpre
    · rw [List.append_assoc, List.cons_append] at hs
      exact hs
    · exact hopen ws hpre

/-- An open session has the timer of its next round, or awaits a delivery. -/
theorem awaits_drive (hsound : n.Sound) (hsupply : n.Supplied)
    (hnone : ∀ link, n.charger.session? link = none) (ts : List Turn) {link : LinkKey}
    {s : Session} (hs : (n.drive ts).charger.session? link = some s) :
    s.followUp.isSome = true ∨ n.Awaits ts link s := by
  induction ts using List.reverseRecOn with
  | nil => cases (hnone link).symm.trans hs
  | append_singleton ts t ih =>
    have hturn : (n.drive (ts ++ [t])).supply link = ((n.drive ts).turn t).supply link := by
      rw [drive_concat]
    have hopen : (((n.drive ts).turn t).supply link).session = some s :=
      (congrArg Supply.session hturn).symm.trans hs
    by_cases hfeeds : t.feeds (n.drive ts) link
    · exact .inl ((fed_turn _ _ hfeeds).open_after (supplied_drive hsupply ts link).covered hopen)
    have hspared : ¬ t.feeds n link := fun h => hfeeds ((feeds_drive hsound ts t link).2 h)
    have hkept : (n.drive ts).charger.session? link = some s →
        s.followUp.isSome = true ∨ n.Awaits (ts ++ [t]) link s := fun hbefore =>
      (ih hbefore).imp_right fun h => h.concat hspared hs
    rcases served_turn _ link hfeeds with hread | hserved
    · exact hkept ((congrArg Supply.session hread).symm.trans hopen)
    · rcases hserved.open_before hopen with hbefore | htaken
      · exact hkept hbefore
      · refine .inr ⟨ts, t, [], rfl, hturn ▸ htaken, fun v hv => absurd hv List.not_mem_nil, ?_⟩
        intro ws hws
        rw [List.prefix_nil.1 hws]
        exact hs

/-! ## Requests -/

/-- Between two states the transport has been asked for rounds of open sessions on a link, of a
limited size. -/
def AsksRounds (n m : Node) (link : LinkKey) (limit : Nat) : Prop :=
  ∃ xs, (m.supply link).asked = xs ++ (n.supply link).asked ∧
    ∀ x ∈ xs, ∃ es s bytes, (m.supply link).record = (n.supply link).record ++ es ∧
      Round link limit (n.supply link) es (m.supply link) x s bytes

theorem asksRounds_of_rounds {link : LinkKey} {limit : Nat}
    (h : Rounds link limit (n.supply link) (m.supply link)) : n.AsksRounds m link limit := by
  obtain ⟨xs, es, hasked, hrecord, hrounds⟩ := h
  refine ⟨xs, hasked, fun x hx => ?_⟩
  obtain ⟨s, bytes, hround⟩ := hrounds x hx
  exact ⟨es, s, bytes, hrecord, hround⟩

/-- The size of a round is one byte at least. -/
theorem toNat_sendSize (h : n.Configured) :
    n.charger.sendSize.toNat = max 1 n.config.charging.sendSize.toNat := by
  have hsize : n.charger.sendSize = (Charger.ofSettings n.config.charging).sendSize :=
    congrArg Settings.sendSize h
  rw [hsize, Charger.toNat_sendSize_ofSettings]

theorem asksRounds_turn (hs : n.Sound) (hsupply : n.Supplied) (t : Turn) (link : LinkKey) :
    n.AsksRounds (n.turn t) link (max 1 n.config.charging.sendSize.toNat) := by
  have hsize := toNat_sendSize hs.configured
  by_cases hfeeds : t.feeds n link
  · exact asksRounds_of_rounds (fed_turn n link hfeeds).rounds
  rcases n.served_turn link hfeeds with hread | hserved
  · refine ⟨[], ?_, fun x hx => absurd hx List.not_mem_nil⟩
    rw [hread]
    rfl
  · rw [← hsize]
    exact asksRounds_of_rounds (hserved.rounds (hsupply link).covered (by omega))

/-! ## All turns -/

/-- A node made from any configuration is driven by any turns. The pending timers of rounds are
those of the open sessions. A tick is pending while the node runs and is to tick, and only then. An
open session has its timer, or awaits a delivery. In every further turn the transport is asked for
rounds of open sessions only, for one byte at least and no more than the size of a round and what
the session has left to deliver. -/
theorem charging_drive {config : Config} {t : Transport} (h : create config t = .ok n)
    (ts : List Turn) :
    (∀ link, (n.drive ts).agenda.idsOf (.chargingRound link) =
      (((n.drive ts).charger.session? link).bind (·.followUp)).toList) ∧
    ((n.drive ts).agenda.idsOf .tick).length =
      (if (n.drive ts).phase = .running ∧ 0 < config.node.tickInterval then 1 else 0) ∧
    (∀ link s, (n.drive ts).charger.session? link = some s →
      (∃ id, s.followUp = some id ∧ (n.drive ts).agenda.idsOf (.chargingRound link) = [id]) ∨
        n.Awaits ts link s) ∧
    ∀ turn link, (n.drive ts).AsksRounds (n.drive (ts ++ [turn])) link
      (max 1 config.charging.sendSize.toNat) := by
  have hsound := sound_create h
  have hsupply := supplied_create h
  have htimed := timed_create h
  obtain ⟨hconfig, hsessions, hticking⟩ : n.config = config ∧
      (∀ link, n.charger.session? link = none) ∧ n.Ticking := by
    unfold create at h
    split at h <;> cases h
    exact ⟨rfl, fun _ => rfl, nofun, fun h => nomatch h.1⟩
  have hdriven : (n.drive ts).config = config :=
    (congrArg Settings.config (settings_drive hsound ts)).trans hconfig
  have hkept := (timed_drive hsound htimed ts).kept
  have hrounds : ∀ link, (n.drive ts).agenda.idsOf (.chargingRound link) =
      (((n.drive ts).charger.session? link).bind (·.followUp)).toList := fun link =>
    hkept.idsOf_eq (t := .chargingRound link) not_false
  refine ⟨hrounds, ?_, ?_, ?_⟩
  · have htick : (n.drive ts).agenda.idsOf .tick = (n.drive ts).tickTimer.toList :=
      hkept.idsOf_eq (t := .tick) not_false
    have hset := ticking_drive hsound htimed hticking ts
    rw [Ticking, hdriven] at hset
    rw [htick]
    cases htimer : (n.drive ts).tickTimer with
    | none =>
      rw [if_neg fun hruns => ?_]
      · rfl
      · rw [← hset, htimer] at hruns
        cases hruns
    | some id =>
      rw [if_pos (hset.1 (htimer ▸ rfl))]
      rfl
  · intro link s hs
    refine (awaits_drive hsound hsupply hsessions ts hs).imp_left fun hset => ?_
    obtain ⟨id, hid⟩ := Option.isSome_iff_exists.1 hset
    refine ⟨id, hid, ?_⟩
    rw [hrounds, hs, Option.bind_some, hid]
    rfl
  · intro turn link
    rw [drive_concat]
    exact hdriven ▸ asksRounds_turn (sound_drive hsound ts) (supplied_drive hsupply ts) turn link

/-- The timer of a round has fired: no timer of the session is pending, and it awaits a delivery. -/
theorem charging_drive_pair : ∃ n, create .pair .accepting = .ok n ∧
    (n.drive Turn.roundFired).agenda.idsOf (.chargingRound (.join ⟨1⟩ ⟨2⟩)) = [] ∧
    ((n.drive Turn.roundFired).agenda.idsOf .tick).length = 1 ∧
    (∃ s, (n.drive Turn.roundFired).charger.session? (.join ⟨1⟩ ⟨2⟩) = some s ∧
      n.Awaits Turn.roundFired (.join ⟨1⟩ ⟨2⟩) s) ∧
    ∀ turn link, (n.drive Turn.roundFired).AsksRounds (n.drive (Turn.roundFired ++ [turn])) link
      (max 1 Config.pair.charging.sendSize.toNat) := by
  obtain ⟨n, hn, hsession, hphase⟩ : ∃ n, create .pair .accepting = .ok n ∧
      ((n.drive Turn.roundFired).charger.session? (.join ⟨1⟩ ⟨2⟩)).map (·.followUp) = some none ∧
      (n.drive Turn.roundFired).phase = .running :=
    ⟨_, rfl, by decide +kernel, by decide +kernel⟩
  obtain ⟨s, hs, hnone⟩ := Option.map_eq_some_iff.1 hsession
  obtain ⟨hrounds, htick, hopen, hasks⟩ := charging_drive hn Turn.roundFired
  refine ⟨n, hn, ?_, ?_, ⟨s, hs, ?_⟩, hasks⟩
  · rw [hrounds, hs, Option.bind_some, hnone]
    rfl
  · rw [htick, if_pos ⟨hphase, by decide⟩]
  · refine (hopen _ s hs).resolve_left ?_
    rintro ⟨id, hid, -⟩
    cases hnone.symm.trans hid

end Node

end KeyReserve
