import KeyReserve.Proofs.QueueOrder
import KeyReserve.Proofs.RecordRuns

/-!
# Bounds on the delay of packets

A secured packet carries a bound on its age from the call that pays for it. It is handed to the
transport within its bound only, whether in that call or after it has waited. Past its bound it is
dropped: it leaves its queue, its link counts it and the drop is reported, all in one step, and the
key material that was paid for it stays spent.

## Main definitions

* `Call.time?`: the instant of a call;
* `DelayExceeded.Tells`: what the report of a dropped packet says of it;
* `Node.PaidBy`: a packet has been paid for, and got its bound, in one of some calls;
* `Node.Spares`, `Node.Drops`: calls that drop nothing, and those that drop packets.

## Main results

* `Node.Sound.spares_or_drops`: each call is of one of the two kinds;
* `Node.delayBounds`: on any run, packets are handed over within their bounds, and dropped past
  them without a refund.
-/

namespace KeyReserve

/-- The instant of a call, where it has one. -/
def Call.time? : Call → Option Millis
  | .start now => some now
  | .establish _ _ now => some now
  | .teardown _ => none
  | .shutdown => none
  | .tick now => some now
  | .timer _ now => some now
  | .sendSecured _ _ now => some now
  | .sendBestEffort _ now => some now
  | .linkReady _ now => some now
  | .chargeDelivered _ _ now => some now
  | .chargeFailed _ _ => none
  | .advertisement _ _ _ _ now => some now
  | .routeReply _ _ _ _ now => some now
  | .drainEvents => none
  | .rearrange _ => none

/-! ## Reports -/

/-- A report tells of a packet that was past its bound at an instant. -/
structure DelayExceeded.Tells (e : DelayExceeded) (p : SecuredPacket) (now : Millis) : Prop where
  packet : e.packet = p.id
  link : e.link = p.link
  cost : e.cost = p.cost
  age : ∃ created, p.delay = some ⟨e.maxDelay, created⟩ ∧
    e.age.toNat = now.toNat - created.toNat
  bounded : 0 < e.maxDelay.toNat
  late : e.maxDelay.toNat < e.age.toNat

theorem SecuredPacket.tells_of_expiry? {p : SecuredPacket} {now : Millis} {e : DelayExceeded}
    (h : p.expiry? now = some e) : e.Tells p now := by
  obtain ⟨tag, htag, hexpired, rfl⟩ := expiry?_eq_some_iff.1 h
  obtain ⟨hpos, hlt⟩ := (tag.isExpired_iff now).1 hexpired
  exact ⟨rfl, rfl, rfl, ⟨tag.createdAt, htag, tag.toNat_age now⟩, hpos, tag.toNat_age now ▸ hlt⟩

theorem SecuredPacket.within_of_expiry? {p : SecuredPacket} {now : Millis} {tag : DelayTag}
    (htag : p.delay = some tag) (h : p.expiry? now = none) :
    ¬ (0 < tag.maxDelay.toNat ∧ tag.maxDelay.toNat < now.toNat - tag.createdAt.toNat) := by
  rw [← tag.isExpired_iff, Bool.not_eq_true]
  exact (expiry?_eq_none_iff htag).1 h

/-- A packet is not too old at the instant from which its age counts. -/
theorem SecuredPacket.expiry?_tagged (p : SecuredPacket) (maxDelay now : Millis) :
    (p.tagged maxDelay now).expiry? now = none := by
  have htag : (p.tagged maxDelay now).delay = some ⟨maxDelay, now⟩ := rfl
  rw [expiry?_eq_none_iff htag, ← Bool.not_eq_true, DelayTag.isExpired_iff]
  simp only [Nat.sub_self, Nat.not_lt_zero, and_false, not_false_eq_true]

namespace Node

variable {n : Node}

/-! ## Payment -/

/-- A packet has been paid for in one of some calls: its cost has been taken out of the buffer of
its link, and its age counts from that call. -/
def PaidBy (n : Node) (calls : List Call) (p : SecuredPacket) : Prop :=
  ∃ earlier packet maxDelay created later keys s,
    calls = earlier ++ .sendSecured packet maxDelay created :: later ∧
    ((n.run earlier).stock.refuse keys).Paid s p ∧
    p.delay = some ⟨maxDelay.getD n.config.delay.defaultMaxDelay, created⟩

theorem PaidBy.mono {calls : List Call} {p : SecuredPacket} (h : n.PaidBy calls p)
    (more : List Call) : n.PaidBy (calls ++ more) p := by
  obtain ⟨earlier, packet, maxDelay, created, later, keys, s, rfl, hpaid, htag⟩ := h
  refine ⟨earlier, packet, maxDelay, created, later ++ more, keys, s, ?_, hpaid, htag⟩
  rw [List.append_assoc, List.cons_append]

theorem PaidBy.exists_tag {calls : List Call} {p : SecuredPacket} (h : n.PaidBy calls p) :
    ∃ tag, p.delay = some tag := by
  obtain ⟨_, _, _, _, _, _, _, -, -, htag⟩ := h
  exact ⟨_, htag⟩

theorem paidFor_eq_tagged {packet : Packet} {maxDelay : Option Millis} {now : Millis}
    {p : SecuredPacket} (h : n.paidFor packet maxDelay now = some p) :
    ∃ q : SecuredPacket, p = q.tagged (maxDelay.getD n.config.delay.defaultMaxDelay) now := by
  unfold paidFor at h
  split at h
  · obtain ⟨c, -, rfl⟩ := Option.map_eq_some_iff.1 h
    exact ⟨n.priced packet c, rfl⟩
  · cases h

theorem Sound.paidBy_concat (h : n.Sound) {before : List Call} {packet : Packet}
    {maxDelay : Option Millis} {now : Millis} {p : SecuredPacket}
    (hp : (n.run before).paidFor packet maxDelay now = some p) :
    n.PaidBy (before ++ [.sendSecured packet maxDelay now]) p := by
  obtain ⟨keys, s, hpaid, -⟩ := paidFor_eq_some (h.run before).configured hp
  obtain ⟨q, rfl⟩ := paidFor_eq_tagged hp
  have hconfig : (n.run before).config = n.config :=
    congrArg Settings.config (h.settings_run before)
  exact ⟨before, packet, maxDelay, now, [], keys, s, rfl, hpaid, by rw [hconfig]; rfl⟩

/-- What is paid for in the course of some calls is paid for in one of them. -/
theorem Sound.paidBy (h : n.Sound) {calls : List Call} {p : SecuredPacket}
    (hp : p ∈ n.paidIn calls) : n.PaidBy calls p := by
  -- the induction is on the calls, from the last of them
  induction calls using List.reverseRecOn with
  | nil => cases hp
  | append_singleton cs c ih =>
    rw [paidIn_append] at hp
    rcases List.mem_append.1 hp with hp | hp
    · exact (ih hp).mono [c]
    · have hlast : p ∈ (n.run cs).paid c := by
        rw [← List.append_nil ((n.run cs).paid c)]
        exact hp
      cases c with
      | sendSecured packet maxDelay now => exact h.paidBy_concat (Option.mem_toList.1 hlast)
      | _ => cases hlast

/-! ## Calls that drop packets and calls that do not -/

/-- A call drops no packet: it reports none, and no link counts one. -/
structure Spares (n : Node) (c : Call) : Prop where
  told : (n.told c).filterMap (·.expiry?) = []
  counted : ∀ key l l', n.links.find? key = some l → (n.apply c).links.find? key = some l' →
    l'.stats.packetsExpired = l.stats.packetsExpired

/-- A call at an instant drops some of the packets that wait, and hands some over. -/
structure Drops (n : Node) (c : Call) (now : Millis) (expired : List SecuredPacket)
    (handed : List HandOver) : Prop where
  time : c.time? = some now
  /-- Packets are tried one by one. Each that is dropped leaves its queue, is counted and is
  reported in a step of its own. -/
  steps : Relation.ReflTransGen (Stock.Tried now) n.stock (n.apply c).stock
  reports : List.Forall₂ (fun p e => DelayExceeded.Tells e p now) expired
    ((n.told c).filterMap (·.expiry?))
  handOvers : (n.apply c).handOvers = n.handOvers ++ handed
  /-- What waited has been settled, has been dropped, or waits. -/
  removed : ∀ p, (settled handed).count p + expired.count p +
    ((n.apply c).queue p.nextHop).count p = (n.queue p.nextHop).count p
  up : ∀ p ∈ expired, n.links.contains p.link = true
  counted : ∀ key l, n.links.find? key = some l → ∃ l', (n.apply c).links.find? key = some l' ∧
    l'.stats.packetsExpired =
      l.stats.packetsExpired + (expired.filter (·.link = key)).length
  buffers : ∀ key, (n.apply c).links.buffer? key = n.links.buffer? key

/-- What a call reports of expired packets is what the reports have gained. -/
theorem expiries_apply {c : Call} (hc : c ≠ .drainEvents) :
    (n.apply c).expiries = n.expiries ++ (n.told c).filterMap (·.expiry?) := by
  rw [expiries, n.events_apply hc, List.filterMap_append]
  rfl

/-- A call after which the reports are those before it drops nothing, if nothing is counted. -/
theorem spares_of_stock {c : Call} (hc : c ≠ .drainEvents)
    (hexpiries : (n.apply c).stock.expiries = n.stock.expiries)
    (hcounted : ∀ key l l', n.stock.accounts key = some l →
      (n.apply c).stock.accounts key = some l' →
      l'.stats.packetsExpired = l.stats.packetsExpired) : n.Spares c where
  told := by
    have htold : n.expiries ++ (n.told c).filterMap (·.expiry?) = n.expiries :=
      (expiries_apply hc).symm.trans hexpiries
    exact List.append_right_eq_self.1 htold
  counted key l l' hl hl' := hcounted key l.account l'.account (n.accounts_of_find? hl)
    ((n.apply c).accounts_of_find? hl')

theorem spares_of_flow {c : Call} (hc : c ≠ .drainEvents) {paid : List SecuredPacket}
    {handed : List HandOver} (hf : Flow n.stock (n.apply c).stock paid [] handed) :
    n.Spares c := by
  obtain ⟨reports, hr, hnone⟩ := hf.expiries
  cases hnone
  refine spares_of_stock hc (hr.trans (List.append_nil _)) ?_
  intro key l l' hl hl'
  exact (hf.booked key l l' hl hl').expired

theorem spares_of_raised {c : Call} (hc : c ≠ .drainEvents) {offered : LinkKey → Bounds → Prop}
    (hr : Raised n.stock (n.apply c).stock offered) : n.Spares c := by
  refine spares_of_stock hc hr.expiries ?_
  intro key l l' hl hl'
  rcases hr.accounts key with heq | ⟨hdown, -⟩
  · cases hl.symm.trans (heq ▸ hl')
    rfl
  · rw [hdown] at hl
    cases hl

theorem spares_of_lowered {c : Call} (hc : c ≠ .drainEvents)
    (hd : Lowered n.stock (n.apply c).stock) : n.Spares c := by
  refine spares_of_stock hc hd.expiries ?_
  intro key l l' hl hl'
  rcases hd.accounts key with heq | hdown
  · cases hl.symm.trans (heq ▸ hl')
    rfl
  · rw [hdown] at hl'
    cases hl'

/-- Packets that are tried in a call are handed over within their bounds and dropped past them. -/
theorem drops_of_tries {c : Call} {now : Millis} (ho : n.stock.Orderly) (hc : c ≠ .drainEvents)
    (htime : c.time? = some now)
    (h : Relation.ReflTransGen (Stock.Tried now) n.stock (n.apply c).stock) :
    ∃ expired handed, n.Drops c now expired handed ∧
      (∀ x ∈ handed, x.packet.expiry? now = none ∧ x.packet ∈ n.queue x.packet.nextHop) ∧
      ∀ p ∈ expired, p ∈ n.queue p.nextHop := by
  obtain ⟨expired, handed, reports, hr⟩ := Stock.exists_released h
  have htold : (n.told c).filterMap (·.expiry?) = reports :=
    List.append_cancel_left ((expiries_apply hc).symm.trans hr.reported)
  have hbalance : ∀ p, (settled handed).count p + expired.count p +
      ((n.apply c).queue p.nextHop).count p = (n.queue p.nextHop).count p := fun p =>
    (hr.flow.balance p).trans (by rw [List.count_nil, Nat.zero_add]; rfl)
  have hwaited : ∀ p ∈ expired, p ∈ n.queue p.nextHop := by
    intro p hp
    have hpos := List.count_pos_iff.2 hp
    have := hbalance p
    exact List.count_pos_iff.1 (by omega)
  refine ⟨expired, handed, ⟨htime, h, ?_, hr.flow.handOvers, hbalance, ?_, ?_, ?_⟩, ?_, hwaited⟩
  · rw [htold]
    exact hr.overdue.imp fun p e he => p.tells_of_expiry? he
  · intro p hp
    rw [← isSome_accounts]
    exact ho.up _ p (hwaited p hp)
  · intro key l hl
    have haccount := hr.counted key
    rw [n.accounts_of_find? hl] at haccount
    obtain ⟨l', hl', heq⟩ := Option.map_eq_some_iff.1 haccount
    exact ⟨l', hl', congrArg (·.stats.packetsExpired) heq⟩
  · intro key
    have hbuffer := congrArg (Option.map (·.buffer)) (hr.counted key)
    simp only [stock, Option.map_map] at hbuffer
    exact hbuffer
  · intro x hx
    exact ⟨hr.timely x hx, (hr.flow.handed x hx).resolve_left List.not_mem_nil⟩

/-- What a call does with the bounds of packets. -/
theorem Sound.spares_or_drops (h : n.Sound) (c : Call) :
    (n.Spares c ∧ ∃ handed, (n.apply c).handOvers = n.handOvers ++ handed ∧
      ∀ x ∈ handed, ∃ packet maxDelay now, c = .sendSecured packet maxDelay now ∧
        n.paidFor packet maxDelay now = some x.packet ∧ x.packet.expiry? now = none) ∨
    ∃ now expired handed, n.Drops c now expired handed ∧
      (∀ x ∈ handed, x.packet.expiry? now = none ∧ x.packet ∈ n.queue x.packet.nextHop) ∧
      ∀ p ∈ expired, p ∈ n.queue p.nextHop := by
  have hstill : n.Spares c → (n.apply c).stock.handOvers = n.stock.handOvers →
      n.Spares c ∧ ∃ handed, (n.apply c).handOvers = n.handOvers ++ handed ∧
        ∀ x ∈ handed, ∃ packet maxDelay now, c = .sendSecured packet maxDelay now ∧
          n.paidFor packet maxDelay now = some x.packet ∧ x.packet.expiry? now = none :=
    fun hs hh => ⟨hs, [], hh.trans (List.append_nil _).symm, nofun⟩
  by_cases hread : c = .drainEvents
  · subst hread
    refine .inl (hstill ⟨?_, ?_⟩ rfl)
    · rw [told]
      exact congrArg _ List.drop_nil
    · intro key l l' hl hl'
      cases hl.symm.trans hl'
      rfl
  have hidle : Flow n.stock (n.apply c).stock [] [] [] → _ := fun hf =>
    hstill (spares_of_flow hread hf) (hf.handOvers.trans (List.append_nil _))
  cases c with
  | start now =>
    have hr := n.raised_start now
    exact .inl (hstill (spares_of_raised hread hr) hr.handOvers)
  | establish peer bounds now =>
    have hr := n.raised_establish peer bounds now
    exact .inl (hstill (spares_of_raised hread hr) hr.handOvers)
  | teardown peer =>
    have hl := n.lowered_teardown peer
    exact .inl (hstill (spares_of_lowered hread hl) hl.handOvers)
  | shutdown =>
    have hl := n.lowered_shutdown
    exact .inl (hstill (spares_of_lowered hread hl) hl.handOvers)
  | tick now => exact .inl (hidle (.of_eq (n.stock_tick now)))
  | timer timer now =>
    cases timer with
    | chargingRound link => exact .inl (hidle (.of_eq (n.stock_chargingRound link now)))
    | deadline link packet =>
      exact .inr ⟨now, drops_of_tries h.orderly hread rfl
        (n.tries_expireWaiting h.orderly link packet now)⟩
    | tick => exact .inl (hidle (.of_eq (n.stock_onTimer_tick now)))
  | sendSecured packet maxDelay now =>
    obtain ⟨_, hf⟩ := flow_sendSecured h.configured packet maxDelay now
    have hspares : n.Spares (.sendSecured packet maxDelay now) := spares_of_flow hread hf
    refine .inl ?_
    cases hp : n.paidFor packet maxDelay now with
    | none =>
      refine hstill hspares ?_
      show (n.sendSecured packet maxDelay now).2.stock.handOvers = _
      rcases paidFor_eq_none h.configured hp with hs | ⟨keys, hs⟩ <;> rw [hs]
      rfl
    | some p =>
      obtain ⟨keys, s, ⟨-, l, left, crossing, -, -, rfl⟩, hsent⟩ := paidFor_eq_some h.configured hp
      obtain ⟨handed, hh, hpacket⟩ := hsent.handed
      refine ⟨hspares, handed, hh, fun x hx => ⟨packet, maxDelay, now, rfl, ?_, ?_⟩⟩
      · rw [hpacket x hx, hp]
      · obtain ⟨q, rfl⟩ := paidFor_eq_tagged hp
        rw [hpacket x hx]
        exact q.expiry?_tagged _ now
  | sendBestEffort packet now => exact .inl (hidle (n.flow_sendBestEffort packet now))
  | linkReady nextHop now =>
    exact .inr ⟨now, drops_of_tries h.orderly hread rfl (n.tries_linkReady h.orderly nextHop now)⟩
  | chargeDelivered peer bytes now =>
    exact .inl (hidle (n.flow_chargeDelivered peer bytes now))
  | chargeFailed peer reason => exact .inl (hidle (.of_eq (n.stock_abandonCharging _ reason)))
  | advertisement sender destination hops seq now =>
    exact .inl (hidle (.of_eq (n.stock_onAdvertisement sender destination hops seq now)))
  | routeReply nextHop destination hops seq now =>
    exact .inl (hidle (.of_eq (n.stock_onRouteReply nextHop destination hops seq now)))
  | drainEvents => exact absurd rfl hread
  | rearrange agenda => exact .inl (hidle (.refl _))

end Node

/-! ## Runs -/

/-- The link of a pair comes up and is charged, and a packet is sent with a bound on its age. -/
def Call.sentBounded : List Call :=
  [.start 0, .chargeDelivered ⟨2⟩ 65 100, .sendSecured ⟨⟨7⟩, ⟨2⟩, 5⟩ (some 50) 100]

namespace Node

variable {n : Node}

/-- Bounds on delays, on a node made from any configuration and driven by any calls:

* each packet that a call hands to the transport has been paid for, in this call or before, and is
  no older than its bound at the instant of the call;
* a call drops nothing, or it drops packets that have been paid for before and are past their
  bounds at its instant, each of which it reports and counts once, and no buffer changes. -/
theorem delayBounds {config : Config} {t : Transport} (h : create config t = .ok n)
    (before : List Call) (c : Call) :
    (∃ handed, ((n.run before).apply c).handOvers = (n.run before).handOvers ++ handed ∧
      ∀ x ∈ handed, n.PaidBy (before ++ [c]) x.packet ∧
        ∃ now tag, c.time? = some now ∧ x.packet.delay = some tag ∧
          ¬ (0 < tag.maxDelay.toNat ∧ tag.maxDelay.toNat < now.toNat - tag.createdAt.toNat)) ∧
    ((n.run before).Spares c ∨
      ∃ now expired handed, (n.run before).Drops c now expired handed ∧
        ∀ p ∈ expired, n.PaidBy before p) := by
  have hsound := sound_create h
  have hwaits : ∀ p, p ∈ (n.run before).queue p.nextHop → n.PaidBy before p := fun p hp =>
    hsound.paidBy (hsound.mem_paidIn_of_mem_queue (queue_create h) hp)
  rcases (hsound.run before).spares_or_drops c with
    ⟨hspares, handed, hh, hfresh⟩ | ⟨now, expired, handed, hdrops, hhanded, hexpired⟩
  · refine ⟨⟨handed, hh, fun x hx => ?_⟩, .inl hspares⟩
    obtain ⟨packet, maxDelay, now, rfl, hpaid, hage⟩ := hfresh x hx
    have hby := hsound.paidBy_concat hpaid
    obtain ⟨tag, htag⟩ := hby.exists_tag
    exact ⟨hby, now, tag, rfl, htag, x.packet.within_of_expiry? htag hage⟩
  · refine ⟨⟨handed, hdrops.handOvers, fun x hx => ?_⟩, .inr ⟨now, expired, handed, hdrops, ?_⟩⟩
    · obtain ⟨hage, hqueued⟩ := hhanded x hx
      have hby := hwaits _ hqueued
      obtain ⟨tag, htag⟩ := hby.exists_tag
      exact ⟨hby.mono [c], now, tag, hdrops.time, htag, x.packet.within_of_expiry? htag hage⟩
    · exact fun p hp => hwaits p (hexpired p hp)

/-- A packet that the transport is too busy for at first is past its bound when it is ready. -/
theorem delayBounds_pair : ∃ n, create .pair .hesitant = .ok n ∧
    ((n.run Call.sentBounded).told (.linkReady ⟨2⟩ 200)).filterMap (·.expiry?) =
      [⟨⟨7⟩, .join ⟨1⟩ ⟨2⟩, 37, 100, 50⟩] ∧
    ∃ now expired handed, (n.run Call.sentBounded).Drops (.linkReady ⟨2⟩ 200) now expired handed ∧
      ∀ p ∈ expired, n.PaidBy Call.sentBounded p := by
  obtain ⟨n, hn, htold⟩ : ∃ n, create .pair .hesitant = .ok n ∧
      ((n.run Call.sentBounded).told (.linkReady ⟨2⟩ 200)).filterMap (·.expiry?) =
        [⟨⟨7⟩, .join ⟨1⟩ ⟨2⟩, 37, 100, 50⟩] :=
    ⟨_, rfl, by decide +kernel⟩
  refine ⟨n, hn, htold, ?_⟩
  rcases (delayBounds hn Call.sentBounded (.linkReady ⟨2⟩ 200)).2 with hspares | hdrops
  · rw [hspares.told] at htold
    cases htold
  · exact hdrops

end Node

end KeyReserve
