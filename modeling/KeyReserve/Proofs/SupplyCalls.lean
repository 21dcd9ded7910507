import KeyReserve.Proofs.NodeSupply

/-!
# The supplies of a node under calls

Every call serves each link in one of the ways that a supply knows, and a delivery feeds the link of
its peer. What the supply gains on its record is told by the call.

## Main definitions

* `Call.feeds`: the call delivers key material to a link.

## Main results

* `Node.fed_chargeDelivered`: what a delivery does;
* `Node.comesUp_start`, `Node.supply_teardown`: links that come up and go down;
* `Node.served`, `Node.fed`: what a call does to a link;
* `Node.Supplied.run`: what holds of every supply after any calls;
* `Node.mem_told_of_record`: what a supply gains on its record is told.
-/

namespace KeyReserve

/-- The call delivers key material to the link of a node. -/
def Call.feeds (c : Call) (n : Node) (key : LinkKey) : Prop :=
  ∃ peer bytes now, c = .chargeDelivered peer bytes now ∧ key = n.linkTo peer

namespace Node

open Supply

variable (n : Node) (key : LinkKey)

/-! ## Deliveries -/

/-- A delivery that is taken in goes into the buffer before its session goes on or ends. -/
theorem supply_credited {peer : NodeId} {bytes : Bytes} {l : Link} {c : Charger} {b : KeyBuffer}
    {d : Delivery} (hr : n.charger.receive (n.linkTo peer) l.buffer bytes = .ok (c, b, d))
    (now : Millis) :
    (n.credited (n.linkTo peer) l c b d now).supply key =
      if key = n.linkTo peer then
        { n.supply key with buffer := some b, session := c.session? key }
      else { n.supply key with session := c.session? key } := by
  obtain ⟨routing, hcredited⟩ := n.credited_of_receive hr now
  have hrecord : (n.events ++ d.crossing.toList.map (Event.levelChanged (n.linkTo peer))).filter
      (·.charges key) = n.events.filter (·.charges key) := by
    rw [List.filter_append, filter_charges_crossing, List.append_nil]
  rw [hcredited]
  simp only [supply, hrecord, Links.buffer?, Table.find?_insert]
  split <;> rfl

theorem supply_awaitRound {link : LinkKey} {s : Session} (hs : n.charger.session? link = some s)
    (applied current : Bytes) (now : Millis) :
    ∃ timer, (n.awaitRound link applied current now).2.supply key =
      if key = link then
        { n.supply link with
          session := some { s with followUp := some timer }
          record := (n.supply link).record ++ [.chargingProgress link s.id applied current] }
      else n.supply key := by
  refine ⟨⟨n.agenda.nextId⟩, ?_⟩
  rw [n.awaitRound_of_session hs]
  simp only [supply_cancelTimer]
  have hcharges : ∀ k, (Event.chargingProgress link s.id applied current).charges k =
      decide (link = k) := fun _ => rfl
  have hrecord := fun k => n.supply_record k hcharges
  have hinsert := ((n.record (.chargingProgress link s.id applied current)).schedule
    (now.addSat n.config.charging.roundInterval) (.chargingRound link)).2.supply_insertSession
      key link { s with followUp := some ⟨n.agenda.nextId⟩ } { n.charger with
        sessions := n.charger.sessions.insert link
          { s with followUp := some ⟨n.agenda.nextId⟩ } } rfl
  refine hinsert.trans ?_
  simp only [supply_schedule, hrecord, if_true]
  split <;> rfl

theorem supply_closeSession (link : LinkKey) (s : Session) :
    (n.closeSession link s).supply key =
      if key = link then
        { n.supply link with
          record := (n.supply link).record ++ [.chargingCompleted link s.id s.delivered s.applied] }
      else n.supply key := by
  unfold closeSession
  simp only
  rw [supply_record _ _ fun _ => rfl]
  simp only [supply_count, supply_cancelTimer]

/-- A delivery feeds the link of its peer, and leaves every other link as it is. -/
theorem fed_chargeDelivered (peer : NodeId) (bytes : Bytes) (now : Millis) :
    Fed (n.linkTo peer) (n.supply (n.linkTo peer))
        ((n.chargeDelivered peer bytes now).2.supply (n.linkTo peer)) ∧
      ∀ key, key ≠ n.linkTo peer →
        (n.chargeDelivered peer bytes now).2.supply key = n.supply key := by
  rcases n.chargeDelivered_cases peer bytes now with ⟨hsame, hnone⟩ | ⟨l, c, b, d, hl, hr⟩
  · rw [hsame]
    exact ⟨.refused (hnone.imp_left (congrArg (Option.map Link.buffer))), fun _ _ => rfl⟩
  have hbuffer : n.links.buffer? (n.linkTo peer) = some l.buffer :=
    congrArg (Option.map Link.buffer) hl
  obtain ⟨s, s', hs, hs', happlied, hprogress⟩ := Charger.receive_progress hr
  obtain ⟨rfl, -⟩ := Charger.receive_credit hr
  have hcharger := (n.told_credited hr now).1
  have hcredited := fun k => n.supply_credited k hr now
  rw [n.chargeDelivered_of_receive hl hr, happlied]
  generalize n.credited (n.linkTo peer) l c (l.buffer.credit bytes).1 d now = m at *
  cases hd : d.progress with
  | goesOn next =>
    rw [hd] at hprogress
    obtain ⟨hfull, hrest, rfl⟩ := hprogress
    have hopen : m.charger.session? (n.linkTo peer) = some s' :=
      hcharger ▸ Charger.session?_insert _ _ _
    have hround := fun k => m.supply_awaitRound k hopen
      (l.buffer.credit bytes).2.applied (l.buffer.credit bytes).1.current now
    simp only
    refine ⟨?_, fun key hk => ?_⟩
    · obtain ⟨timer, htimer⟩ := hround (n.linkTo peer)
      rw [htimer, if_pos rfl, hcredited, if_pos rfl]
      have hfed : Fed (n.linkTo peer) (n.supply (n.linkTo peer)) _ :=
        .goesOn hbuffer hs hs' hfull hrest timer
      exact hfed
    · obtain ⟨timer, htimer⟩ := hround key
      have hother : ({ n.charger with
          sessions := n.charger.sessions.insert (n.linkTo peer) s' } : Charger).session? key =
          n.charger.session? key := by
        rw [Charger.session?, Table.find?_insert, if_neg hk]
        rfl
      rw [htimer, if_neg hk, hcredited, if_neg hk, hother]
      rfl
  | completed gone =>
    rw [hd] at hprogress
    obtain ⟨rfl, rfl⟩ := hprogress
    simp only [supply_closeSession, if_true]
    refine ⟨?_, fun key hk => ?_⟩
    · have hnone : ({ n.charger with
          sessions := n.charger.sessions.erase (n.linkTo peer) } : Charger).session?
            (n.linkTo peer) = none := by
        rw [Charger.session?, Table.find?_erase, if_pos rfl]
      rw [hcredited, if_pos rfl, hnone]
      exact .completed hbuffer hs hs'
    · have hother : ({ n.charger with
          sessions := n.charger.sessions.erase (n.linkTo peer) } : Charger).session? key =
          n.charger.session? key := by
        rw [Charger.session?, Table.find?_erase, if_neg hk]
        rfl
      rw [if_neg hk, hcredited, if_neg hk, hother]
      rfl

/-! ## Links that come up and go down -/

theorem comesUp_bringUp (peer : NodeId) (bounds : Bounds) (now : Millis) :
    ComesUp key n.charger.sendSize (n.supply key) ((n.bringUp peer bounds now).2.supply key) := by
  unfold bringUp
  simp only
  cases hlinks : Links.establish n.links (n.linkTo peer) bounds now with
  | error e => exact .inl rfl
  | ok links =>
    obtain ⟨hloop, hdown, b, -, rfl⟩ := Links.establish_eq_ok_iff.1 hlinks
    have hinsert : { n with links := n.links.insert (n.linkTo peer) ⟨b, {}, now⟩ }.supply key =
        if key = n.linkTo peer then { n.supply key with buffer := some b } else n.supply key := by
      simp only [supply, Links.buffer?, Table.find?_insert]
      split <;> rfl
    by_cases hk : key = n.linkTo peer
    · rw [if_pos hk] at hinsert
      subst hk
      refine .inr ⟨congrArg (Option.map Link.buffer) hdown, hloop, b, ?_⟩
      rw [← hinsert]
      exact checked_chargeIfLow { n with
        links := n.links.insert (n.linkTo peer) ⟨b, {}, now⟩
        protocols := { n.protocols with
          proactive := n.protocols.proactive.map fun t => (t.addNeighbor peer 0 now).2 } }
        (n.linkTo peer) now
    · rw [if_neg hk] at hinsert
      exact .inl ((supply_chargeIfLow_of_ne _ key hk now).trans hinsert)

theorem comesUp_bringUpAll (now : Millis) (ls : List LinkSettings) :
    ComesUp key n.charger.sendSize (n.supply key) ((n.bringUpAll now ls).2.supply key) := by
  induction ls generalizing n with
  | nil => exact .inl rfl
  | cons l ls ih =>
    have hstep := n.comesUp_bringUp key l.peer (l.boundsOr n.config.buffer) now
    have hlater := ih (n.bringUp l.peer (l.boundsOr n.config.buffer) now).2
    have hsize : (n.bringUp l.peer (l.boundsOr n.config.buffer) now).2.charger.sendSize =
        n.charger.sendSize :=
      congrArg Settings.sendSize (n.raised_bringUp l.peer (l.boundsOr n.config.buffer) now).settings
    rw [hsize] at hlater
    exact hstep.trans hlater

theorem comesUp_start (now : Millis) :
    ComesUp key n.charger.sendSize (n.supply key) ((n.start now).2.supply key) := by
  unfold start
  split
  · exact .inl rfl
  · simp only
    rw [supply_scheduleTick]
    exact n.comesUp_bringUpAll key now n.config.links

theorem comesUp_establish (peer : NodeId) (bounds : Bounds) (now : Millis) :
    ComesUp key n.charger.sendSize (n.supply key) ((n.establish peer bounds now).2.supply key) := by
  have h := n.comesUp_bringUp key peer bounds now
  unfold establish
  split
  · exact .inl rfl
  · split <;> rename_i hm <;> rw [hm] at h <;> exact h

theorem supply_teardown (peer : NodeId) :
    (n.teardown peer).2.supply key =
      if key = n.linkTo peer then { n.supply key with buffer := none, session := none }
      else n.supply key := by
  have herase := n.supply_eraseSession key (n.linkTo peer) (n.charger.cancel (n.linkTo peer)).1 rfl
  have hdown : ∀ (m : Node), { m with links := m.links.erase (n.linkTo peer) }.supply key =
      if key = n.linkTo peer then { m.supply key with buffer := none } else m.supply key := by
    intro m
    simp only [supply, Links.buffer?, Table.find?_erase]
    split <;> rfl
  have hsame : (n.teardown peer).2.supply key = { { n with
      charger := (n.charger.cancel (n.linkTo peer)).1 } with
      links := n.links.erase (n.linkTo peer) }.supply key := by
    obtain ⟨agenda, h⟩ := n.exists_teardown peer
    rw [h]
    rfl
  rw [hsame, hdown, herase]
  split
  · rename_i hk
    rw [hk]
  · rfl

theorem lowered_supply_teardownAll (keys : List LinkKey) :
    (n.teardownAll keys).supply key = n.supply key ∨
      (n.teardownAll keys).supply key = { n.supply key with buffer := none, session := none } := by
  unfold teardownAll
  induction keys generalizing n with
  | nil => exact .inl rfl
  | cons k ks ih =>
    rw [List.foldl_cons]
    cases k.other n.id with
    | none => exact ih n
    | some peer =>
      have hlater := ih (n.teardown peer).2
      rw [supply_teardown] at hlater
      split at hlater
      · rcases hlater with heq | heq <;> exact .inr heq
      · exact hlater

theorem served_shutdown (size : Bytes) :
    Served key size (n.supply key) (n.shutdown.supply key) := by
  unfold shutdown
  split
  · exact .still
  · have hlowered := n.lowered_supply_teardownAll key n.links.keys
    simp only
    generalize n.teardownAll n.links.keys = m at *
    have hsame : { m.cancelTimer m.tickTimer with
        tickTimer := none, phase := .stopped }.supply key = m.supply key :=
      supply_cancelTimer m key _
    rw [hsame]
    rcases hlowered with heq | heq <;> rw [heq]
    · exact .still
    · exact .lowered

/-! ## Sending -/

theorem buffer?_eq_meters : n.links.buffer? key = (n.reserve.meters key).map Meter.buffer := by
  show _ = ((n.links.find? key).map Link.meter).map Meter.buffer
  rw [Option.map_map]
  rfl

/-- A walk over routes takes the price of a packet out of one buffer, if it pays at all. -/
theorem supply_payOnFirst (packet : Packet) (rs : List RankedRoute) :
    match n.payOnFirst packet rs with
    | (none, m) => m.supply key = n.supply key
    | (some secured, m) => m.charger = n.charger ∧ ∃ b b' amount,
        n.links.buffer? secured.packet.link = some b ∧
        b.debit amount = .ok (b', secured.crossing) ∧
        m.supply key = if key = secured.packet.link then { n.supply key with buffer := some b' }
          else n.supply key := by
  have hspent := n.spent_payOnFirst packet rs
  obtain ⟨links, hlinks⟩ := n.exists_payOnFirst packet rs
  split <;> rename_i hm <;> rw [hm] at hspent hlinks <;> simp only at hlinks <;> subst hlinks
  · have hbuffer := congrArg (·.map Meter.buffer) (congrFun (congrArg Reserve.meters hspent.2) key)
    rw [← buffer?_eq_meters, ← buffer?_eq_meters] at hbuffer
    simp only [supply, hbuffer]
  · rename_i secured
    obtain ⟨k, l, amount, hk, hd, -, hreserve⟩ := hspent.debit
    refine ⟨rfl, k.buffer, l.buffer, amount, ?_, hd, ?_⟩
    · rw [buffer?_eq_meters, hk]
      rfl
    · have hmeter := congrFun (congrArg Reserve.meters hreserve) key
      have hbuffer := congrArg (·.map Meter.buffer) hmeter
      rw [← buffer?_eq_meters] at hbuffer
      simp only [supply, hbuffer, Reserve.withMeter, buffer?_eq_meters]
      split <;> rfl

/-- The price of a packet has been taken out, and a drop is followed by a check. -/
theorem served_sendPaid {m : Node} {secured : Secured} (hcharger : m.charger = n.charger)
    {b b' : KeyBuffer} {amount : Bytes} (hb : n.links.buffer? secured.packet.link = some b)
    (hd : b.debit amount = .ok (b', secured.crossing))
    (hm : m.supply key = if key = secured.packet.link then { n.supply key with buffer := some b' }
      else n.supply key) (maxDelay : Option Millis) (now : Millis) :
    Served key n.charger.sendSize (n.supply key)
      ((m.sendPaid secured maxDelay now).2.supply key) := by
  unfold sendPaid
  cases hc : secured.crossing with
  | none =>
    rw [hc] at hd
    simp only [supply_dispatch]
    rw [hm]
    split
    · rename_i hk
      exact .debited (hk ▸ hb) hd
    · exact .still
  | some x =>
    rw [hc] at hd
    have hdrop : x.isDrop = true := by
      rw [(KeyBuffer.isBelowThreshold_of_debit hd).2]
      rfl
    have hcrossed := m.supply_crossing key secured.packet.link x
    simp only [supply_dispatch]
    rw [m.levelCrossed_of_drop hdrop]
    by_cases hk : key = secured.packet.link
    · subst hk
      have hchecked := checked_chargeIfLow { m.record (.levelChanged secured.packet.link x) with
        routing := (m.routing.forgetLink secured.packet.link).2 } secured.packet.link now
      rw [hcrossed, hm, if_pos rfl] at hchecked
      refine .dropped hb hd ?_
      rw [← hcharger]
      exact hchecked
    · rw [supply_chargeIfLow_of_ne _ key hk, hcrossed, hm, if_neg hk]
      exact .still

theorem served_sendSecured (packet : Packet) (maxDelay : Option Millis) (now : Millis) :
    Served key n.charger.sendSize (n.supply key)
      ((n.sendSecured packet maxDelay now).2.supply key) := by
  have hstill : ∀ m : Node, m.supply key = n.supply key →
      Served key n.charger.sendSize (n.supply key) (m.supply key) := fun m hm => hm ▸ .still
  unfold sendSecured
  split
  · exact .still
  · split
    · exact .still
    · rename_i cs q _
      simp only
      split
      · exact hstill _ (supply_requestRoute { n with protocols := q } key _ now)
      · split
        · exact .still
        · exact hstill _ (supply_record_aside _ key rfl)
        · rename_i viable routing _
          have hpaid := supply_payOnFirst { n with protocols := q, routing } key packet viable
          split <;> rename_i hm <;> rw [hm] at hpaid
          · obtain ⟨hcharger, b, b', amount, hb, hd, hsupply⟩ := hpaid
            exact served_sendPaid { n with protocols := q, routing } key hcharger hb hd hsupply
              maxDelay now
          · exact hstill _ ((supply_record_aside _ key rfl).trans hpaid)

/-! ## Calls -/

theorem served_onTimer (timer : Timer) (now : Millis) :
    Served key n.charger.sendSize (n.supply key) ((n.onTimer timer now).supply key) := by
  cases timer with
  | chargingRound link => exact n.served_chargingRound key link now
  | deadline link packet =>
    show Served _ _ _ ((n.expireWaiting link packet now).supply key)
    rw [supply_expireWaiting]
    exact .still
  | tick =>
    unfold onTimer
    simp only
    split
    · rw [supply_scheduleTick]
      exact .checked (checked_tick { n with tickTimer := none } key now)
    · exact .still

/-- Every call but a delivery serves a link in one of the ways that a supply knows. -/
theorem served {c : Call} (hc : c ≠ .drainEvents) (hfeeds : ¬ c.feeds n key) :
    Served key n.charger.sendSize (n.supply key) ((n.apply c).supply key) := by
  have hstill : ∀ m : Node, m.supply key = n.supply key →
      Served key n.charger.sendSize (n.supply key) (m.supply key) := fun m hm => hm ▸ .still
  cases c with
  | start now => exact (n.comesUp_start key now).served
  | establish peer bounds now => exact (n.comesUp_establish key peer bounds now).served
  | teardown peer =>
    show Served _ _ _ ((n.teardown peer).2.supply key)
    rw [supply_teardown]
    split
    · exact .lowered
    · exact .still
  | shutdown => exact n.served_shutdown key _
  | tick now => exact .checked (n.checked_tick key now)
  | timer timer now => exact n.served_onTimer key timer now
  | sendSecured packet maxDelay now => exact n.served_sendSecured key packet maxDelay now
  | sendBestEffort packet now => exact hstill _ (n.supply_sendBestEffort key packet now)
  | linkReady nextHop now => exact hstill _ (n.supply_linkReady key nextHop now)
  | chargeDelivered peer bytes now =>
    refine hstill _ ((n.fed_chargeDelivered peer bytes now).2 key ?_)
    rintro rfl
    exact hfeeds ⟨peer, bytes, now, rfl, rfl⟩
  | chargeFailed peer reason => exact n.served_abandonCharging key _ reason _
  | advertisement sender destination hops seq now =>
    refine hstill _ ?_
    show (n.onAdvertisement sender destination hops seq now).2.supply key = _
    unfold onAdvertisement
    split <;> rfl
  | routeReply nextHop destination hops seq now =>
    refine hstill _ ?_
    show (n.onRouteReply nextHop destination hops seq now).2.supply key = _
    unfold onRouteReply
    split <;> rfl
  | drainEvents => exact absurd rfl hc
  | rearrange agenda => exact .still

/-- A delivery feeds its link. -/
theorem fed {c : Call} (hfeeds : c.feeds n key) :
    Fed key (n.supply key) ((n.apply c).supply key) := by
  obtain ⟨peer, bytes, now, rfl, rfl⟩ := hfeeds
  exact (n.fed_chargeDelivered peer bytes now).1

/-- What holds of the supplies of a node. -/
def Supplied (n : Node) : Prop := ∀ key, (n.supply key).Sound key

theorem Supplied.apply {n : Node} (h : n.Supplied) (c : Call) : (n.apply c).Supplied := by
  intro key
  by_cases hc : c = .drainEvents
  · subst hc
    exact ⟨(h key).covered, (h key).joins⟩
  by_cases hfeeds : c.feeds n key
  · exact (h key).of_fed (n.fed key hfeeds)
  · exact (h key).of_served (n.served key hc hfeeds)

theorem Supplied.run {n : Node} (h : n.Supplied) (cs : List Call) : (n.run cs).Supplied := by
  induction cs generalizing n with
  | nil => exact h
  | cons c cs ih => exact ih (h.apply c)

theorem supplied_create {n : Node} {config : Config} {t : Transport}
    (h : create config t = .ok n) : n.Supplied := by
  unfold create at h
  split at h <;> cases h
  exact fun _ => ⟨covered_of_none rfl, nofun⟩

theorem mem_told_of_record {c : Call} (hc : c ≠ .drainEvents) {es : List Event}
    (h : ((n.apply c).supply key).record = (n.supply key).record ++ es) {e : Event} (he : e ∈ es) :
    e ∈ n.told c := by
  have happend : n.events.filter (·.charges key) ++ (n.told c).filter (·.charges key) =
      n.events.filter (·.charges key) ++ es := by
    rw [← List.filter_append, ← n.events_apply hc]
    exact h
  rw [← List.append_cancel_left happend] at he
  exact (List.mem_filter.1 he).1

end Node

end KeyReserve
