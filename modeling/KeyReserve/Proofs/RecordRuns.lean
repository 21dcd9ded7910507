import KeyReserve.Proofs.Record
import KeyReserve.Proofs.Run

/-!
# The record of a run

Each call adds to the record of a node what is recorded of the change that it makes, and nothing on
the record is altered until it is read. The log of a run is all that its calls have added, whether
it was read in between or not. What the log of a link says is told by what each change adds to it,
from the call in which the link came up.

## Main definitions

* `Node.told`, `Node.log`: what a call adds to the record, and what calls in a row add to it;
* `Node.Spent`: a packet has been paid for.

## Main results

* `Node.changed`: what a call does to the reserve, with what it records;
* `Node.events_apply`: what is on the record stays on it until it is read;
* `Node.UpSince.record`: what the log of a link says since the link came up.
-/

namespace KeyReserve

/-- A debit that crosses the threshold drops below it. -/
theorem KeyBuffer.isBelowThreshold_of_debit {b left : KeyBuffer} {amount : Bytes} {x : Crossing}
    (h : b.debit amount = .ok (left, some x)) :
    left.isBelowThreshold = true ∧ x = ⟨.belowThreshold, left.current⟩ := by
  have hexact := toNat_debit h
  obtain ⟨-, -, hthreshold, -, -, hcrossing⟩ := debit_eq_ok_iff.1 h
  rw [crossingFrom] at hcrossing
  split at hcrossing
  · cases hcrossing
  · rename_i hne
    have hlow : left.isBelowThreshold = true := by
      by_contra hnot
      have hbefore : ¬ b.isBelowThreshold = true := by
        rw [isBelowThreshold, decide_eq_true_eq, UInt64.lt_iff_toNat_lt] at hnot ⊢
        rw [hthreshold] at hnot
        omega
      rw [level, level, if_neg hnot, if_neg hbefore] at hne
      exact hne rfl
    refine ⟨hlow, ?_⟩
    rw [Option.some.inj hcrossing, level, if_pos hlow]

/-- What a delivery does to a session that goes on, and to one that ends. -/
theorem Charger.receive_progress {c c' : Charger} {link : LinkKey} {b b' : KeyBuffer} {bytes : Bytes}
    {d : Delivery} (h : c.receive link b bytes = .ok (c', b', d)) :
    ∃ s s', c.session? link = some s ∧ s' = s.recordDelivery bytes (b.credit bytes).2.applied ∧
      d.applied = (b.credit bytes).2.applied ∧
      match d.progress with
      | .goesOn _ => (b.credit bytes).1.isFull = false ∧ s'.remaining ≠ 0 ∧
          c' = { c with sessions := c.sessions.insert link s' }
      | .completed gone => gone = s' ∧ c' = { c with sessions := c.sessions.erase link } := by
  unfold receive at h
  split at h
  · cases h
  · rename_i s hs
    refine ⟨s, _, hs, rfl, ?_⟩
    simp only at h
    split at h <;> cases h
    · exact ⟨rfl, rfl, rfl⟩
    · rename_i hends
      rw [Bool.or_eq_true, not_or, decide_eq_true_eq, Bool.not_eq_true] at hends
      exact ⟨rfl, hends.1, hends.2, rfl⟩

namespace Node

open Reserve

/-- What a call adds to the record. -/
def told (n : Node) (c : Call) : List Event := (n.apply c).events.drop n.events.length

/-- What calls in a row add to the record, whether or not it is read in between. -/
def log (n : Node) : List Call → List Event
  | [] => []
  | c :: cs => n.told c ++ (n.apply c).log cs

variable (n : Node) {offered : LinkKey → Bounds → Prop}

/-! ## Sending -/

/-- What is asked for and found of routes is no part of the reserve. -/
theorem tells_requestRoute (destination : NodeId) (now : Millis) :
    n.Tells offered (n.requestRoute destination now).2 := by
  unfold requestRoute
  split
  · exact .refl n
  · exact .of_eq rfl rfl
  · rename_i q _
    have hsubmit : ∀ r, n.Tells offered ({ n with protocols := q }.submit r).2 := fun r =>
      .of_eq rfl rfl
    split <;> rename_i hm <;> have h := hsubmit (.route ‹_›) <;> rw [hm] at h <;> exact h

theorem tells_sendBestEffort (packet : Packet) (now : Millis) :
    n.Tells offered (n.sendBestEffort packet now).2 := by
  unfold sendBestEffort
  split
  · exact .refl n
  · split
    · exact .refl n
    · rename_i cs q _
      have hranked : n.Tells offered { n with
          protocols := q
          routing := (n.routing.rank cs .bestEffort n.links now).2 } := .of_eq rfl rfl
      simp only
      split
      · exact hranked.trans (tells_requestRoute _ _ now)
      · rename_i best _
        have hsubmit : n.Tells offered ({ n with
            protocols := q
            routing := (n.routing.rank cs .bestEffort n.links now).2 }.submit
              (.plain best.candidate.nextHop packet)).2 := .of_eq rfl rfl
        split <;> rename_i hm <;> rw [hm] at hsubmit <;> exact hsubmit

/-- A packet has been paid for on its link, and nothing has been recorded yet. -/
structure Spent (n m : Node) (secured : Secured) : Prop where
  events : m.events = n.events
  charger : m.charger = n.charger
  debit : ∃ k l amount, n.reserve.meters secured.packet.link = some k ∧
    k.buffer.debit amount = .ok (l.buffer, secured.crossing) ∧
    m.links.find? secured.packet.link = some l ∧
    m.reserve = n.reserve.withMeter secured.packet.link (some { k with buffer := l.buffer })

/-- Refusals are no part of the reserve. -/
theorem reserve_refuse (keys : List LinkKey) :
    { n with links := n.links.refuse keys }.reserve = n.reserve := by
  have h : ∀ key, ((n.links.refuse keys).find? key).map Link.meter =
      (n.links.find? key).map Link.meter := by
    intro key
    rw [Links.find?_refuse, Option.map_map]
    rfl
  simp only [reserve, h]

/-- A walk over routes records nothing, and takes the price out of one buffer at most. -/
theorem spent_payOnFirst (packet : Packet) (rs : List RankedRoute) :
    match n.payOnFirst packet rs with
    | (none, m) => m.events = n.events ∧ m.reserve = n.reserve
    | (some secured, m) => n.Spent m secured := by
  induction rs generalizing n with
  | nil => exact ⟨rfl, rfl⟩
  | cons r rs ih =>
    cases hr : n.affords packet r.candidate with
    | false =>
      have hlater := ih { n with links := n.links.refuse [n.linkTo r.candidate.nextHop] }
      have hsame := n.reserve_refuse [n.linkTo r.candidate.nextHop]
      rw [n.payOnFirst_refused packet rs hr]
      split <;> rename_i hm <;> rw [hm] at hlater
      · exact ⟨hlater.1, hlater.2.trans hsame⟩
      · obtain ⟨k, l, amount, hk, hd, hl, hreserve⟩ := hlater.debit
        rw [hsame] at hk hreserve
        exact ⟨hlater.events, hlater.charger, k, l, amount, hk, hd, hl, hreserve⟩
    | true =>
      obtain ⟨l, hl⟩ : ∃ l, n.links.find? (n.linkTo r.candidate.nextHop) = some l := by
        cases hl : n.links.find? (n.linkTo r.candidate.nextHop) with
        | none => rw [affords, hl] at hr; cases hr
        | some l => exact ⟨l, rfl⟩
      obtain ⟨left, crossing, hdebit⟩ := KeyBuffer.exists_debit ((affords_iff hl).1 hr)
      rw [n.payOnFirst_cons packet rs hl hdebit]
      refine ⟨rfl, rfl, l.meter, l.debited left (n.priced packet r.candidate), _,
        n.meters_of_find? hl, hdebit, ?_, n.reserve_insert _ _⟩
      exact (n.links.find?_insert _ _ _).trans (if_pos rfl)

/-- What follows a drop: it is recorded, and next a session opens unless one is open. -/
theorem told_levelCrossed {link : LinkKey} {l : Link} (hl : n.links.find? link = some l)
    (hlow : l.buffer.isBelowThreshold = true) {x : Crossing} (hx : x.isDrop = true) (now : Millis) :
    ∃ es, (n.levelCrossed link x now).events = n.events ++ .levelChanged link x :: es ∧
      Steps offered n.reserve es (n.levelCrossed link x now).reserve ∧
      (n.charger.session? link = none → ∃ s target fs, es = .chargingStarted link s target :: fs) := by
  have hcrossed : n.levelCrossed link x now =
      { n.record (.levelChanged link x) with
        routing := (n.routing.forgetLink link).2 }.chargeIfLow link now := by
    unfold levelCrossed
    simp only [hx, if_true]
    rfl
  have happend : ∀ es, (n.record (.levelChanged link x)).events ++ es =
      n.events ++ .levelChanged link x :: es := fun es => List.append_assoc _ _ _
  rw [hcrossed]
  cases hs : n.charger.session? link with
  | none =>
    obtain ⟨s, target, es, he, hsteps⟩ := @told_chargeIfLow
      { n.record (.levelChanged link x) with routing := (n.routing.forgetLink link).2 } offered
      link l hl hlow hs now
    exact ⟨_, he.trans (happend _), hsteps, fun _ => ⟨s, target, es, rfl⟩⟩
  | some s =>
    obtain ⟨es, he, hsteps⟩ := @tells_chargeIfLow
      { n.record (.levelChanged link x) with routing := (n.routing.forgetLink link).2 } offered
      link now
    exact ⟨es, he.trans (happend es), hsteps, nofun⟩

/-- What follows a debit, with what is recorded of it. -/
theorem paid_sendPaid {m : Node} {secured : Secured} (h : n.Spent m secured)
    (maxDelay : Option Millis) (now : Millis) :
    ∃ es, (m.sendPaid secured maxDelay now).2.events = n.events ++ es ∧
      Reserve.Paid offered n.reserve es (m.sendPaid secured maxDelay now).2.reserve := by
  obtain ⟨k, l, amount, hk, hd, hl, hreserve⟩ := h.debit
  have hdispatch : ∀ (m' : Node) (p : SecuredPacket), m'.Tells offered (m'.dispatch p).2 :=
    fun m' p => m'.tells_dispatch p
  unfold sendPaid
  cases hc : secured.crossing with
  | none =>
    obtain ⟨es, he, hs⟩ := hdispatch m
      (secured.packet.tagged (maxDelay.getD m.config.delay.defaultMaxDelay) now)
    rw [hc] at hd
    exact ⟨_, h.events ▸ he, .debited hk hd (hreserve ▸ hs) nofun⟩
  | some x =>
    rw [hc] at hd
    obtain ⟨hlow, hx⟩ := KeyBuffer.isBelowThreshold_of_debit hd
    obtain ⟨es, he, hs, hnext⟩ := @told_levelCrossed m offered _ _ hl hlow x (hx ▸ rfl) now
    obtain ⟨fs, hf, ht⟩ := hdispatch (m.levelCrossed secured.packet.link x now)
      (secured.packet.tagged (maxDelay.getD
        (m.levelCrossed secured.packet.link x now).config.delay.defaultMaxDelay) now)
    refine ⟨_, ?_, .debited hk hd (hreserve ▸ hs.trans ht) ?_⟩
    · rw [hf, he, h.events, List.append_assoc]
      rfl
    · intro _ hidle
      rw [sessions_eq_none_iff, ← h.charger] at hidle
      obtain ⟨s, target, gs, rfl⟩ := hnext hidle
      exact ⟨s, target, gs ++ fs, rfl⟩

theorem changed_sendSecured (packet : Packet) (maxDelay : Option Millis) (now : Millis) :
    ∃ es, (n.sendSecured packet maxDelay now).2.events = n.events ++ es ∧
      Changed offered n.reserve es (n.sendSecured packet maxDelay now).2.reserve := by
  have hmoved : ∀ m : Node, n.Tells offered m →
      ∃ es, m.events = n.events ++ es ∧ Changed offered n.reserve es m.reserve :=
    fun m ⟨es, he, hs⟩ => ⟨es, he, .moved hs⟩
  have hrefused : ∀ m : Node, m.Tells offered (m.refuseSecured packet).2 := fun m =>
    ⟨[.noSecuredRoute packet.destination packet.id], rfl, .single (.noted _ rfl)⟩
  unfold sendSecured
  split
  · exact hmoved n (.refl n)
  · split
    · exact hmoved n (.refl n)
    · rename_i cs q _
      have hlooked : n.Tells offered { n with protocols := q } := .of_eq rfl rfl
      simp only
      split
      · exact hmoved _ (hlooked.trans (tells_requestRoute _ _ now))
      · split
        · exact hmoved _ (.of_eq rfl rfl)
        · refine hmoved _ (Tells.trans ?_ (hrefused _))
          exact .of_eq rfl rfl
        · rename_i viable routing _
          have hwalk := spent_payOnFirst { n with protocols := q, routing } packet viable
          split <;> rename_i hm <;> rw [hm] at hwalk
          · obtain ⟨es, he, hp⟩ := paid_sendPaid { n with protocols := q, routing } hwalk maxDelay now
            exact ⟨es, he, .paid hp⟩
          · refine hmoved _ (Tells.trans ?_ (hrefused _))
            exact .of_eq hwalk.1 hwalk.2

/-! ## Deliveries -/

/-- The node once a delivery has been put into a buffer. -/
theorem told_credited {peer : NodeId} {bytes : Bytes} {l : Link} {c : Charger} {b : KeyBuffer}
    {d : Delivery} (hr : n.charger.receive (n.linkTo peer) l.buffer bytes = .ok (c, b, d))
    (now : Millis) :
    (n.credited (n.linkTo peer) l c b d now).charger = c ∧
      (n.credited (n.linkTo peer) l c b d now).events = n.events ++
        (l.buffer.credit bytes).2.crossing.toList.map (.levelChanged (n.linkTo peer)) ∧
      (n.credited (n.linkTo peer) l c b d now).reserve =
        { n with charger := c }.reserve.withMeter (n.linkTo peer) (some (l.meter.credit bytes)) := by
  obtain ⟨rfl, happlied⟩ := Charger.receive_credit hr
  obtain ⟨routing, hcredited⟩ := n.credited_of_receive hr now
  rw [Charger.receive_crossing hr, happlied] at hcredited
  rw [hcredited]
  exact ⟨rfl, rfl, reserve_insert { n with charger := c } (n.linkTo peer) _⟩

theorem told_awaitRound {link : LinkKey} {s : Session} (hs : n.charger.session? link = some s)
    (applied current : Bytes) (now : Millis) :
    (n.awaitRound link applied current now).2.events =
        n.events ++ [.chargingProgress link s.id applied current] ∧
      (n.awaitRound link applied current now).2.reserve = n.reserve := by
  rw [n.awaitRound_of_session hs]
  refine ⟨events_cancelTimer _ _, (reserve_cancelTimer _ _).trans ?_⟩
  exact n.reserve_retimed hs _

theorem reserve_closeSession (link : LinkKey) (s : Session) :
    (n.closeSession link s).reserve = n.reserve.withMeter link
      ((n.reserve.meters link).map Meter.complete) := by
  have hcount := (n.cancelTimer s.followUp).reserve_count (f := LinkStats.completed)
    (g := Meter.complete) (fun _ => rfl) link
  rw [reserve_cancelTimer] at hcount
  exact hcount

theorem changed_chargeDelivered (peer : NodeId) (bytes : Bytes) (now : Millis) :
    ∃ es, (n.chargeDelivered peer bytes now).2.events = n.events ++ es ∧
      Changed offered n.reserve es (n.chargeDelivered peer bytes now).2.reserve := by
  have hrefused : n.events = n.events ++ [] ∧ Changed offered n.reserve [] n.reserve :=
    ⟨(List.append_nil _).symm, .moved (.refl _)⟩
  rcases n.chargeDelivered_cases peer bytes now with ⟨hsame, -⟩ | ⟨l, c, b, d, hl, hr⟩
  · rw [hsame]
    exact ⟨[], hrefused⟩
  have hm := n.meters_of_find? hl
  obtain ⟨s, _, hs, rfl, happlied, hprogress⟩ := Charger.receive_progress hr
  obtain ⟨hcharger, hevents, hreserve⟩ := n.told_credited hr now
  have hopen := n.sessions_of_session? hs
  obtain ⟨rfl, -⟩ := Charger.receive_credit hr
  rw [n.chargeDelivered_of_receive hl hr, happlied]
  generalize n.credited (n.linkTo peer) l c (l.buffer.credit bytes).1 d now = m at *
  cases hd : d.progress with
  | goesOn next =>
    rw [hd] at hprogress
    obtain ⟨-, -, rfl⟩ := hprogress
    obtain ⟨hround, hsame⟩ := m.told_awaitRound (hcharger ▸ Charger.session?_insert _ _ _)
      (l.buffer.credit bytes).2.applied (l.buffer.credit bytes).1.current now
    rw [hevents, List.append_assoc] at hround
    refine ⟨_, hround, .credited ?_⟩
    show Credited _ _ (m.awaitRound _ _ _ _).2.reserve
    rw [hsame, hreserve, reserve_insertSession]
    exact .goesOn hm hopen bytes
  | completed s' =>
    rw [hd] at hprogress
    obtain ⟨rfl, rfl⟩ := hprogress
    have hclosed := m.events_closeSession (n.linkTo peer)
      (s.recordDelivery bytes (l.buffer.credit bytes).2.applied)
    rw [hevents, List.append_assoc] at hclosed
    refine ⟨_, hclosed, .credited ?_⟩
    show Credited _ _ (m.closeSession _ _).reserve
    rw [reserve_closeSession, hreserve, reserve_eraseSession, withMeter_withMeter,
      show ((n.reserve.withSession _ _).withMeter _ _).meters _ = some (l.meter.credit bytes) from
        if_pos rfl]
    have hdone := @Credited.completed _ _ _ _
      (s.recordDelivery bytes (l.buffer.credit bytes).2.applied).untimed _ hm hopen rfl
    exact hdone

/-! ## Calls -/

theorem changed_apply {c : Call} (hc : c ≠ .drainEvents) :
    ∃ es, (n.apply c).events = n.events ++ es ∧
      Changed (c.Offers n) n.reserve es (n.apply c).reserve := by
  have hmoved : ∀ m : Node, n.Tells (c.Offers n) m →
      ∃ es, m.events = n.events ++ es ∧ Changed (c.Offers n) n.reserve es m.reserve :=
    fun m ⟨es, he, hs⟩ => ⟨es, he, .moved hs⟩
  have hclosed : ∀ m : Node, Closed n.reserve m.reserve ∧ m.events = n.events →
      ∃ es, m.events = n.events ++ es ∧ Changed (c.Offers n) n.reserve es m.reserve :=
    fun m ⟨h, he⟩ => ⟨[], he.trans (List.append_nil _).symm, .closed rfl h⟩
  cases c with
  | start now => exact hmoved _ (n.tells_start now)
  | establish peer bounds now => exact hmoved _ (n.tells_establish peer bounds now)
  | teardown peer => exact hclosed _ (n.closed_teardown peer)
  | shutdown => exact hclosed _ n.closed_shutdown
  | tick now => exact hmoved _ (n.tells_tick now)
  | timer timer now => exact hmoved _ (n.tells_onTimer timer now)
  | sendSecured packet maxDelay now => exact n.changed_sendSecured packet maxDelay now
  | sendBestEffort packet now => exact hmoved _ (n.tells_sendBestEffort packet now)
  | linkReady nextHop now => exact hmoved _ (n.tells_linkReady nextHop now)
  | chargeDelivered peer bytes now => exact n.changed_chargeDelivered peer bytes now
  | chargeFailed peer reason => exact hmoved _ (n.tells_abandonCharging _ reason)
  | advertisement sender destination hops seq now =>
    refine hmoved _ ?_
    show n.Tells _ (n.onAdvertisement sender destination hops seq now).2
    unfold onAdvertisement
    split <;> exact .of_eq rfl rfl
  | routeReply nextHop destination hops seq now =>
    refine hmoved _ ?_
    show n.Tells _ (n.onRouteReply nextHop destination hops seq now).2
    unfold onRouteReply
    split <;> exact .of_eq rfl rfl
  | drainEvents => exact absurd rfl hc
  | rearrange agenda => exact hmoved _ (.of_eq rfl rfl)

/-- What is on the record stays on it until it is read, and what a call tells comes after it. -/
theorem events_apply {c : Call} (hc : c ≠ .drainEvents) :
    (n.apply c).events = n.events ++ n.told c := by
  obtain ⟨es, he, -⟩ := n.changed_apply hc
  rw [told, he, List.drop_left]

/-- What a call does to the reserve, with what it records. -/
theorem changed (c : Call) : Changed (c.Offers n) n.reserve (n.told c) (n.apply c).reserve := by
  by_cases hc : c = .drainEvents
  · subst hc
    have hnone : n.told .drainEvents = [] := List.drop_nil
    exact hnone ▸ .moved (.refl _)
  · obtain ⟨es, he, h⟩ := n.changed_apply hc
    rw [told, he, List.drop_left]
    exact h

/-! ## Runs -/

theorem log_append (cs ds : List Call) : n.log (cs ++ ds) = n.log cs ++ (n.run cs).log ds := by
  induction cs generalizing n with
  | nil => rfl
  | cons c cs ih =>
    show n.told c ++ (n.apply c).log (cs ++ ds) = n.told c ++ (n.apply c).log cs ++ _
    rw [ih, List.append_assoc]
    rfl

theorem log_concat (cs : List Call) (c : Call) :
    n.log (cs ++ [c]) = n.log cs ++ (n.run cs).told c := by
  rw [log_append, log, log, List.append_nil]

theorem isSome_meters (key : LinkKey) :
    (n.reserve.meters key).isSome = n.links.contains key :=
  Option.isSome_map

variable {n}

theorem attended_create {config : Config} {t : Transport} (h : create config t = .ok n) :
    n.reserve.Attended := by
  unfold create at h
  split at h <;> cases h
  exact fun key hs => absurd hs Bool.false_ne_true

theorem attended_run (h : n.reserve.Attended) (cs : List Call) : (n.run cs).reserve.Attended := by
  induction cs generalizing n with
  | nil => exact h
  | cons c cs ih => exact ih (h.of_changed (n.changed c))

/-- What the record of a link says from the call in which the link came up: what it says of that
call, and what every later call keeps while the link is up. -/
theorem UpSince.record {key : LinkKey} {before after : List Call} {c : Call}
    (hs : n.UpSince key before c after) (ha : n.reserve.Attended)
    {P : Reserve → List Event → Prop}
    (hfirst : ∀ r es u, Changed (c.Offers (n.run before)) r es u → r.Attended →
      r.meters key = none → (u.meters key).isSome = true → P u es)
    (hlater : ∀ offered r es fs u, Changed offered r fs u → r.Attended →
      (r.meters key).isSome = true → (u.meters key).isSome = true → P r es → P u (es ++ fs)) :
    P (n.run (before ++ c :: after)).reserve ((n.run before).log (c :: after)) := by
  have hup : ∀ ds, ds <+: after →
      ((((n.run before).apply c).run ds).reserve.meters key).isSome = true := fun ds hds => by
    rw [isSome_meters]
    exact hs.up ds hds
  -- the induction is on the later calls, from the last of them
  have hrun : ∀ ds, ds <+: after →
      P (((n.run before).apply c).run ds).reserve ((n.run before).log (c :: ds)) := by
    intro ds
    induction ds using List.reverseRecOn with
    | nil =>
      intro hds
      have hdown : (n.run before).reserve.meters key = none := by
        rw [← Option.not_isSome_iff_eq_none, isSome_meters, hs.down]
        exact Bool.false_ne_true
      have htold : (n.run before).log [c] = (n.run before).told c := List.append_nil _
      rw [htold]
      exact hfirst _ _ _ ((n.run before).changed c) (attended_run ha before) hdown (hup [] hds)
    | append_singleton cs d ih =>
      intro hds
      have hcs : cs <+: after := (List.prefix_append cs [d]).trans hds
      have hlast := hup (cs ++ [d]) hds
      have hlog : (n.run before).log (c :: (cs ++ [d])) =
          (n.run before).log (c :: cs) ++ (((n.run before).apply c).run cs).told d :=
        (n.run before).log_concat (c :: cs) d
      rw [run_concat] at hlast ⊢
      rw [hlog]
      exact hlater _ _ _ _ _ (changed _ d)
        (attended_run ((attended_run ha before).of_changed (changed _ c)) cs) (hup cs hcs) hlast
        (ih hcs)
  have hend : n.run (before ++ c :: after) = ((n.run before).apply c).run after :=
    n.run_append before (c :: after)
  rw [hend]
  exact hrun after (List.prefix_refl after)

end Node

end KeyReserve
