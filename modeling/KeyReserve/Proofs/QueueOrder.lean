import KeyReserve.Proofs.NodeWatch
import KeyReserve.Proofs.PacketLedger

/-!
# The order of packets

Packets toward one next hop leave in the order in which they were paid for. A packet that is paid
for while others wait goes behind them, one that the transport is too busy for stays in front, and
one that expires or has its timer set again does not move the others.

## Main definitions

* `Stock.InOrder`: a step that keeps the packets toward each next hop in order.

## Main results

* `Stock.InOrder.trans`: steps in a row keep the order;
* `Stock.Tried.inOrder`, `Stock.Dispatched.inOrder`: the steps that hand packets over;
* `Node.accepted_sublist_paidIn`: the order over any calls.
-/

namespace KeyReserve

namespace Stock

/-- What a step hands over that the transport takes, followed by what waits then, has the order of
what waited before, followed by what the step pays for. -/
structure InOrder (s t : Stock) (paid : List SecuredPacket) (handed : List HandOver) : Prop where
  handOvers : t.handOvers = s.handOvers ++ handed
  order : ∀ hop, ((HandOver.accepted handed).filter (·.nextHop = hop) ++ t.queue hop).Sublist
    (s.queue hop ++ paid.filter (·.nextHop = hop))

namespace InOrder

variable {s t u : Stock} {p q : List SecuredPacket} {h k : List HandOver}

/-- Nothing is handed over, and at most packets are taken out of queues. -/
theorem of_queue (hh : t.handOvers = s.handOvers)
    (hq : ∀ hop, (t.queue hop).Sublist (s.queue hop)) : InOrder s t [] [] where
  handOvers := hh.trans (List.append_nil _).symm
  order hop := by
    rw [List.filter_nil, List.append_nil]
    exact hq hop

theorem of_eq (hh : t.handOvers = s.handOvers) (hq : t.queue = s.queue) : InOrder s t [] [] :=
  of_queue hh fun _ => hq ▸ List.Sublist.refl _

theorem of_raised {offered : LinkKey → Bounds → Prop} (hr : Raised s t offered) :
    InOrder s t [] [] := .of_eq hr.handOvers hr.queue

theorem of_lowered (hl : Lowered s t) : InOrder s t [] [] := by
  refine .of_queue hl.handOvers fun hop => ?_
  rcases hl.queue hop with ⟨hq, -⟩ | ⟨hq, -⟩
  · exact hq ▸ List.Sublist.refl _
  · exact hq ▸ List.nil_sublist _

theorem trans (hf : InOrder s t p h) (hg : InOrder t u q k) : InOrder s u (p ++ q) (h ++ k) where
  handOvers := by rw [hg.handOvers, hf.handOvers, List.append_assoc]
  order hop := by
    have first := hf.order hop
    have later := hg.order hop
    simp only [HandOver.accepted, List.filter_append, List.map_append] at first later ⊢
    rw [List.append_assoc, ← List.append_assoc (s.queue hop)]
    refine (later.append_left _).trans ?_
    rw [← List.append_assoc]
    exact first.append_right _

end InOrder

/-- Only the queue of one next hop changes. -/
theorem withQueue_sublist {s : Stock} {hop k : NodeId} {ps : List SecuredPacket}
    (h : ps.Sublist (s.queue hop)) : ((s.withQueue hop ps).queue k).Sublist (s.queue k) := by
  rw [withQueue_queue]
  split
  · rename_i hk
    exact hk ▸ h
  · exact List.Sublist.refl _

theorem filter_single (p : SecuredPacket) (hop : NodeId) :
    [p].filter (·.nextHop = hop) = if hop = p.nextHop then [p] else [] := by
  by_cases h : p.nextHop = hop
  · simp [h]
  · simp [h, Ne.symm h]

/-! ## The ways of a packet -/

section Leaving

variable {s t : Stock} {p : SecuredPacket} {rest : List SecuredPacket}

/-- The first packet of a queue leaves it for the transport, whether that takes it or not. -/
theorem InOrder.handOver (hq : s.queue p.nextHop = p :: rest) (failure : Option TransportError) :
    InOrder s ((s.withQueue p.nextHop rest).handOver ⟨p, failure⟩) [] [⟨p, failure⟩] := by
  refine ⟨rfl, fun hop => ?_⟩
  have htaken : (HandOver.accepted [⟨p, failure⟩]).Sublist [p] := by
    cases failure with
    | none => exact List.Sublist.refl _
    | some e => exact List.nil_sublist _
  rw [List.filter_nil, List.append_nil]
  refine ((htaken.filter _).append_right _).trans ?_
  rw [filter_single]
  show List.Sublist (_ ++ if hop = p.nextHop then rest else s.queue hop) _
  split
  · rename_i hk
    rw [hk, hq]
    exact List.Sublist.refl _
  · exact List.Sublist.refl _

/-- The transport is too busy for a packet, which stays where it is. -/
theorem InOrder.refused (s : Stock) (p : SecuredPacket) (e : TransportError) :
    InOrder s (s.handOver ⟨p, some e⟩) [] [⟨p, some e⟩] where
  handOvers := rfl
  order hop := List.sublist_append_left (s.queue hop) _

/-- A packet that has been paid for goes behind those that wait for its next hop, and out only
where there are none. -/
theorem Dispatched.inOrder {r : Except NodeError SendOutcome} (h : s.Dispatched p r t) :
    ∃ handed, InOrder s t [p] handed := by
  have hjoins : InOrder s (s.withQueue p.nextHop (s.queue p.nextHop ++ [p])) [p] [] := by
    refine ⟨(List.append_nil _).symm, fun hop => ?_⟩
    show List.Sublist (if hop = p.nextHop then s.queue p.nextHop ++ [p] else s.queue hop) _
    rw [filter_single]
    split
    · rename_i hk
      exact hk ▸ List.Sublist.refl _
    · exact List.sublist_append_left _ _
  have hself : s.queue p.nextHop = [] → s.withQueue p.nextHop [] = s := fun hq => by
    rw [← hq]
    exact s.withQueue_self p.nextHop
  have halone : s.queue p.nextHop = [] →
      (s.withQueue p.nextHop (s.queue p.nextHop ++ [p])).queue p.nextHop = [p] := fun hq => by
    rw [withQueue_queue, if_pos rfl, hq, List.nil_append]
  cases h with
  | sent hq =>
    have hleave := InOrder.handOver (halone hq) none
    rw [withQueue_withQueue, hself hq] at hleave
    exact ⟨_, hjoins.trans hleave⟩
  | refused hq e hb =>
    have hleave := InOrder.handOver (halone hq) (some e)
    rw [withQueue_withQueue, hself hq] at hleave
    exact ⟨_, hjoins.trans hleave⟩
  | heldUp hq e hb =>
    rw [hq] at hjoins
    exact ⟨_, hjoins.trans (.refused _ p e)⟩
  | behind hq => exact ⟨[], hjoins⟩

/-- A packet that is tried leaves its queue from the front for the transport, or expires from where
it stands. -/
theorem Tried.inOrder {now : Millis} (h : Tried now s t) : ∃ handed, InOrder s t [] handed := by
  cases h with
  | heldUp hq _ e _ => exact ⟨_, .refused s _ e⟩
  | settled hq _ failure _ => exact ⟨_, .handOver hq failure⟩
  | @expired p before after e hq _ =>
    refine ⟨[], .of_queue rfl fun _ => withQueue_sublist ?_⟩
    rw [hq]
    exact (List.sublist_cons_self p after).append_left before

theorem inOrder_of_tries {now : Millis} (h : Relation.ReflTransGen (Tried now) s t) :
    ∃ handed, InOrder s t [] handed := by
  induction h with
  | refl => exact ⟨[], .of_eq rfl rfl⟩
  | tail _ step ih =>
    obtain ⟨first, hfirst⟩ := ih
    obtain ⟨later, hlater⟩ := step.inOrder
    exact ⟨first ++ later, hfirst.trans hlater⟩

end Leaving

end Stock

namespace Node

open Stock

variable (n : Node)

/-! ## Calls -/

theorem inOrder_sendSecured (hconf : n.Configured) (packet : Packet) (maxDelay : Option Millis)
    (now : Millis) :
    ∃ handed, InOrder n.stock (n.sendSecured packet maxDelay now).2.stock
      (n.paidFor packet maxDelay now).toList handed := by
  cases hp : n.paidFor packet maxDelay now with
  | none =>
    refine ⟨[], ?_⟩
    rcases paidFor_eq_none hconf hp with hs | ⟨keys, hs⟩ <;> rw [hs]
    · exact .of_eq rfl rfl
    · exact .of_eq rfl rfl
  | some p =>
    obtain ⟨keys, s, ⟨-, l, left, crossing, -, -, rfl⟩, hsent⟩ := paidFor_eq_some hconf hp
    obtain ⟨handed, hio⟩ := hsent.inOrder
    exact ⟨handed, hio.handOvers, hio.order⟩

theorem queue_sendBestEffort (packet : Packet) (now : Millis) :
    (n.sendBestEffort packet now).2.queue = n.queue := by
  unfold sendBestEffort
  split
  · rfl
  · split
    · rfl
    · rename_i cs q _
      simp only
      split
      · exact congrArg Stock.queue
          (stock_requestRoute { n with protocols := q, routing := _ } _ now)
      · rename_i best _
        split <;> rename_i m hm <;>
          obtain rfl : ({ n with protocols := q, routing := _ }.submit _).2 = m :=
            congrArg Prod.snd hm
        · rfl
        · rfl

variable {n : Node}

theorem Sound.inOrder (h : n.Sound) (c : Call) :
    ∃ handed, InOrder n.stock (n.apply c).stock (n.paid c) handed := by
  have hstill : n.paid c = [] → (n.apply c).stock = n.stock →
      ∃ handed, InOrder n.stock (n.apply c).stock (n.paid c) handed := fun hp hs =>
    ⟨[], hp ▸ .of_eq (congrArg Stock.handOvers hs) (congrArg Stock.queue hs)⟩
  cases c with
  | start now => exact ⟨[], .of_raised (n.raised_start now)⟩
  | establish peer bounds now => exact ⟨[], .of_raised (n.raised_establish peer bounds now)⟩
  | teardown peer => exact ⟨[], .of_lowered (n.lowered_teardown peer)⟩
  | shutdown => exact ⟨[], .of_lowered n.lowered_shutdown⟩
  | tick now => exact hstill rfl (n.stock_tick now)
  | timer timer now =>
    cases timer with
    | chargingRound link => exact hstill rfl (n.stock_chargingRound link now)
    | deadline link packet => exact inOrder_of_tries (n.tries_expireWaiting h.orderly link packet now)
    | tick => exact hstill rfl (n.stock_onTimer_tick now)
  | sendSecured packet maxDelay now => exact n.inOrder_sendSecured h.configured packet maxDelay now
  | sendBestEffort packet now =>
    exact ⟨[], .of_eq ((n.flow_sendBestEffort packet now).handOvers.trans (List.append_nil _))
      (n.queue_sendBestEffort packet now)⟩
  | linkReady nextHop now => exact inOrder_of_tries (n.tries_linkReady h.orderly nextHop now)
  | chargeDelivered peer bytes now =>
    exact ⟨[], .of_eq ((n.flow_chargeDelivered peer bytes now).handOvers.trans (List.append_nil _))
      (n.queue_chargeDelivered peer bytes now)⟩
  | chargeFailed peer reason => exact hstill rfl (n.stock_abandonCharging _ reason)
  | advertisement sender destination hops seq now =>
    exact hstill rfl (n.stock_onAdvertisement sender destination hops seq now)
  | routeReply nextHop destination hops seq now =>
    exact hstill rfl (n.stock_onRouteReply nextHop destination hops seq now)
  | drainEvents => exact ⟨[], .of_eq rfl rfl⟩
  | rearrange agenda => exact hstill rfl rfl

theorem Sound.inOrder_run (h : n.Sound) (cs : List Call) :
    ∃ handed, InOrder n.stock (n.run cs).stock (n.paidIn cs) handed := by
  induction cs generalizing n with
  | nil => exact ⟨[], .of_eq rfl rfl⟩
  | cons c cs ih =>
    obtain ⟨first, step⟩ := h.inOrder c
    obtain ⟨later, hlater⟩ := ih (h.apply c)
    exact ⟨first ++ later, step.trans hlater⟩

/-- On a link that is up before and after a call, what the call has debited is what it has paid for
on this link. -/
theorem Sound.debited (h : n.Sound) {c : Call} {key : LinkKey} {l l' : Link}
    (hl : n.links.find? key = some l) (hl' : (n.apply c).links.find? key = some l') :
    l'.stats.packetsSecured =
        l.stats.packetsSecured + ((n.paid c).filter (·.link = key)).length ∧
      l'.stats.keyBytesConsumed = l.stats.keyBytesConsumed +
        (((n.paid c).filter (·.link = key)).map (·.cost.toNat)).sum := by
  have hbefore : n.links.contains key = true := congrArg Option.isSome hl
  have hafter : (n.apply c).links.contains key = true := congrArg Option.isSome hl'
  obtain ⟨expired, handed, ht⟩ := h.tally hbefore hafter
  obtain ⟨m, m', hm, hm', hbooked⟩ := ht.booked
  obtain rfl : l.account = m := Option.some.inj ((accounts_of_find? _ hl).symm.trans hm)
  obtain rfl : l'.account = m' := Option.some.inj ((accounts_of_find? _ hl').symm.trans hm')
  exact ⟨hbooked.secured, hbooked.consumed⟩

end Node

/-! ## A transport that is busy at first -/

/-- The transport that is too busy for the first secured packet, and takes everything after it. -/
def Transport.hesitant : Transport where
  answer
    | past, .secured p => if past.any (·.handOver?.isSome) then none else some (.busy p.nextHop)
    | _, _ => none

/-- The link of a pair comes up and is charged, two packets are sent, and then it is ready. -/
def Call.twoSent : List Call :=
  [.start 0, .chargeDelivered ⟨2⟩ 65 100, .sendSecured ⟨⟨7⟩, ⟨2⟩, 5⟩ none 100,
    .sendSecured ⟨⟨8⟩, ⟨2⟩, 5⟩ none 100, .linkReady ⟨2⟩ 110]

namespace Node

variable {n : Node}

/-- On a node made from any configuration and driven by any calls, the packets that the transport
has taken toward a next hop are in the order in which they were paid for. What a call pays for is
what it debits: each link counts just the packets that the call pays for on it, and their cost. -/
theorem accepted_sublist_paidIn {config : Config} {t : Transport} (h : create config t = .ok n)
    (calls : List Call) (hop : NodeId) :
    (∃ handed, (n.run calls).handOvers = n.handOvers ++ handed ∧
      ((HandOver.accepted handed).filter (·.nextHop = hop)).Sublist
        ((n.paidIn calls).filter (·.nextHop = hop))) ∧
    ∀ before c after, calls = before ++ c :: after →
      (∀ p ∈ (n.run before).paid c, p.link = n.linkTo p.nextHop) ∧
      ∀ key l l', (n.run before).links.find? key = some l →
        (n.run (before ++ [c])).links.find? key = some l' →
        l'.stats.packetsSecured =
            l.stats.packetsSecured + (((n.run before).paid c).filter (·.link = key)).length ∧
          l'.stats.keyBytesConsumed = l.stats.keyBytesConsumed +
            ((((n.run before).paid c).filter (·.link = key)).map (·.cost.toNat)).sum := by
  have hsound := sound_create h
  have hempty : n.stock.queue hop = [] := queue_create h hop
  refine ⟨?_, fun before c after _ => ⟨?_, ?_⟩⟩
  · obtain ⟨handed, hio⟩ := hsound.inOrder_run calls
    have horder := hio.order hop
    rw [hempty, List.nil_append] at horder
    exact ⟨handed, hio.handOvers, (List.sublist_append_left _ _).trans horder⟩
  · intro p hp
    obtain ⟨-, -, -, -, hproper⟩ := (hsound.run before).handed c
    have hid : (n.run before).id = n.id := congrArg Settings.id (hsound.settings_run before)
    rw [linkTo, ← hid]
    exact (hproper p hp).link
  · intro key l l' hl hl'
    rw [run_concat] at hl'
    exact (hsound.run before).debited hl hl'

/-- The first packet waits, the second joins it, and both leave in their order. -/
theorem accepted_sublist_paidIn_pair : ∃ n, create .pair .hesitant = .ok n ∧
    (n.run Call.twoSent).queue ⟨2⟩ = [] ∧
    (n.paidIn Call.twoSent).map (·.id) = [⟨7⟩, ⟨8⟩] ∧
    ∃ handed, (n.run Call.twoSent).handOvers = n.handOvers ++ handed ∧
      (HandOver.accepted handed).map (·.id) = [⟨7⟩, ⟨8⟩] ∧
      ((HandOver.accepted handed).filter (·.nextHop = ⟨2⟩)).Sublist
        ((n.paidIn Call.twoSent).filter (·.nextHop = ⟨2⟩)) := by
  obtain ⟨n, hn, hempty, hpaid, hblank, htaken⟩ : ∃ n, create .pair .hesitant = .ok n ∧
      (n.run Call.twoSent).queue ⟨2⟩ = [] ∧
      (n.paidIn Call.twoSent).map (·.id) = [⟨7⟩, ⟨8⟩] ∧ n.handOvers = [] ∧
      (HandOver.accepted (n.run Call.twoSent).handOvers).map (·.id) = [⟨7⟩, ⟨8⟩] :=
    ⟨_, rfl, by decide +kernel, by decide +kernel, rfl, by decide +kernel⟩
  obtain ⟨⟨handed, hh, horder⟩, -⟩ := accepted_sublist_paidIn hn Call.twoSent ⟨2⟩
  refine ⟨n, hn, hempty, hpaid, handed, hh, ?_, horder⟩
  rw [← htaken, hh, hblank, List.nil_append]

end Node

end KeyReserve
