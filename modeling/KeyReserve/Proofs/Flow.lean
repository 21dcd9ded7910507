import KeyReserve.Proofs.Stock
import Mathlib.Algebra.Ring.Nat
import Mathlib.Data.List.Forall2

/-!
# The flow of packets

A step of a node moves packets: some are paid for, some are handed to the transport, some expire,
and the others wait. A flow tells what a step has moved and says that nothing else has: what has
been settled or has expired, with what waits after it, is what has been paid for with what waited
before. It also says that the links have counted just that.

## Main definitions

* `HandOver.isBusy`, `settled`: the packets that the transport has disposed of, one way or the other;
* `Link.Booked`: what a link has counted between two states;
* `Stock.Proper`, `Stock.Orderly`: what is true of each packet that is paid for, and of each that
  waits;
* `Flow`: what a step has moved.

## Main results

* `Flow.trans`: steps in a row move what each of them moves;
* `Stock.Orderly.of_flow`: a flow leaves the queues in order;
* `Flow.handOver`, `Flow.expire`: the ways out of a queue.
-/

namespace KeyReserve

/-- Whether the transport was too busy for the packet, which then waits. -/
def HandOver.isBusy (h : HandOver) : Bool := h.failure.any (·.isBusy)

/-- The packets that the transport has taken or refused for good. -/
def settled (hs : List HandOver) : List SecuredPacket :=
  (hs.filter (!·.isBusy)).map (·.packet)

/-- The report `e` tells of the end of packet `p`. -/
def Reports (e : DelayExceeded) (p : SecuredPacket) : Prop := ∃ now, p.expiry? now = some e

theorem overdue_of_reports {reports : List DelayExceeded} {expired : List SecuredPacket}
    (h : List.Forall₂ Reports reports expired) {p : SecuredPacket} (hp : p ∈ expired) :
    ∃ now e, p.expiry? now = some e := by
  induction h with
  | nil => cases hp
  | cons hr _ ih =>
    rcases List.mem_cons.1 hp with rfl | hp
    · obtain ⟨now, hnow⟩ := hr
      exact ⟨now, _, hnow⟩
    · exact ih hp

/-- The level from which the totals of a link lead to the present one. -/
def Link.openingLevel (l : Link) : Int :=
  l.buffer.current.toNat + l.stats.keyBytesConsumed - l.stats.keyBytesCharged

/-- What a link has counted while some packets were paid for on it and some of its packets
expired. Deliveries of key material may come in between. -/
structure Link.Booked (l l' : Link) (paid expired : List SecuredPacket) : Prop where
  minimum : l'.buffer.minimum = l.buffer.minimum
  threshold : l'.buffer.threshold = l.buffer.threshold
  maximum : l'.buffer.maximum = l.buffer.maximum
  opening : l'.openingLevel = l.openingLevel
  secured : l'.stats.packetsSecured = l.stats.packetsSecured + paid.length
  consumed : l'.stats.keyBytesConsumed =
    l.stats.keyBytesConsumed + (paid.map (·.cost.toNat)).sum
  expired : l'.stats.packetsExpired = l.stats.packetsExpired + expired.length

theorem Link.Booked.refl (l : Link) : l.Booked l [] [] := ⟨rfl, rfl, rfl, rfl, rfl, rfl, rfl⟩

theorem Link.Booked.trans {l m k : Link} {p q e f : List SecuredPacket} (h : l.Booked m p e)
    (h' : m.Booked k q f) : l.Booked k (p ++ q) (e ++ f) where
  minimum := h'.minimum.trans h.minimum
  threshold := h'.threshold.trans h.threshold
  maximum := h'.maximum.trans h.maximum
  opening := h'.opening.trans h.opening
  secured := by rw [h'.secured, h.secured, List.length_append, Nat.add_assoc]
  consumed := by rw [h'.consumed, h.consumed, List.map_append, List.sum_append, Nat.add_assoc]
  expired := by rw [h'.expired, h.expired, List.length_append, Nat.add_assoc]

namespace Stock

variable (s : Stock)

/-- What is true of each packet that is paid for on a node: link, price and modes. -/
structure Proper (p : SecuredPacket) : Prop where
  link : p.link = .join s.settings.id p.nextHop
  cost : p.cost = s.settings.config.cost.price p.packet.payload
  encryption : p.encryption = s.settings.config.cost.encryption
  authentication : p.authentication = s.settings.config.cost.authentication

theorem proper_congr {s t : Stock} (h : t.settings = s.settings) (p : SecuredPacket) :
    t.Proper p ↔ s.Proper p := by
  constructor <;> rintro ⟨h1, h2, h3, h4⟩
  · rw [h] at h1 h2 h3 h4
    exact ⟨h1, h2, h3, h4⟩
  · rw [← h] at h1 h2 h3 h4
    exact ⟨h1, h2, h3, h4⟩

/-- Each queue holds packets paid for on a link that is up, and each of them waits for the next
hop of the queue. -/
structure Orderly : Prop where
  nextHop : ∀ hop, ∀ p ∈ s.queue hop, p.nextHop = hop
  proper : ∀ hop, ∀ p ∈ s.queue hop, s.Proper p
  up : ∀ hop, ∀ p ∈ s.queue hop, (s.accounts p.link).isSome

/-- The stock with other packets waiting for a next hop. -/
def withQueue (hop : NodeId) (ps : List SecuredPacket) : Stock :=
  { s with queue := fun h => if h = hop then ps else s.queue h }

/-- The stock after a packet has been handed over. -/
def handOver (h : HandOver) : Stock := { s with handOvers := s.handOvers ++ [h] }

/-- The stock after the expiry of a packet has been counted and recorded. -/
def lose (e : DelayExceeded) : Stock :=
  { s with
    accounts := fun key =>
      if key = e.link then (s.accounts key).map fun l => { l with stats := l.stats.expired }
      else s.accounts key
    expiries := s.expiries ++ [e] }

@[simp] theorem withQueue_queue (hop h : NodeId) (ps : List SecuredPacket) :
    (s.withQueue hop ps).queue h = if h = hop then ps else s.queue h := rfl

@[simp] theorem withQueue_withQueue (hop : NodeId) (ps qs : List SecuredPacket) :
    (s.withQueue hop ps).withQueue hop qs = s.withQueue hop qs := by
  simp only [withQueue, Stock.mk.injEq, true_and, and_true]
  funext h
  split <;> rfl

@[simp] theorem withQueue_self (hop : NodeId) : s.withQueue hop (s.queue hop) = s := by
  have : (fun h => if h = hop then s.queue hop else s.queue h) = s.queue := by
    funext h
    split
    · rename_i hh
      rw [hh]
    · rfl
  simp only [withQueue, this]

end Stock

/-! ## Flows -/

/-- What a step has moved: the packets paid for, those expired, and the hand-overs, in order. -/
structure Flow (s s' : Stock) (paid expired : List SecuredPacket) (handed : List HandOver) :
    Prop where
  settings : s'.settings = s.settings
  handOvers : s'.handOvers = s.handOvers ++ handed
  expiries : ∃ reports, s'.expiries = s.expiries ++ reports ∧ List.Forall₂ Reports reports expired
  /-- The same links are up. -/
  up : ∀ key, (s'.accounts key).isSome = (s.accounts key).isSome
  booked : ∀ key l l', s.accounts key = some l → s'.accounts key = some l' →
    l.Booked l' (paid.filter (·.link = key)) (expired.filter (·.link = key))
  /-- Nothing is lost and nothing is made: each packet that waited or was paid for has been
  settled, has expired, or waits. -/
  balance : ∀ p, (settled handed).count p + expired.count p + (s'.queue p.nextHop).count p =
    paid.count p + (s.queue p.nextHop).count p
  waiting : ∀ hop, ∀ p ∈ s'.queue hop, p ∈ s.queue hop ∨ p ∈ paid ∧ p.nextHop = hop
  /-- Packets are paid for on links that are up. -/
  proper : ∀ p ∈ paid, s.Proper p ∧ (s.accounts p.link).isSome
  /-- Only packets that have been paid for are handed over. -/
  handed : ∀ h ∈ handed, h.packet ∈ paid ∨ h.packet ∈ s.queue h.packet.nextHop

namespace Flow

variable {s t u : Stock} {p q e f : List SecuredPacket} {h k : List HandOver}

/-- A step that moves no packet: at most, links count something else. -/
theorem counted (hsettings : t.settings = s.settings) (hhandOvers : t.handOvers = s.handOvers)
    (hexpiries : t.expiries = s.expiries) (hqueue : t.queue = s.queue)
    (hup : ∀ key, (t.accounts key).isSome = (s.accounts key).isSome)
    (hbooked : ∀ key l l', s.accounts key = some l → t.accounts key = some l' → l.Booked l' [] []) :
    Flow s t [] [] [] where
  settings := hsettings
  handOvers := by rw [hhandOvers, List.append_nil]
  expiries := ⟨[], by rw [hexpiries, List.append_nil], .nil⟩
  up := hup
  booked := hbooked
  balance x := by
    rw [hqueue]
    rfl
  waiting hop x hx := by
    rw [hqueue] at hx
    exact .inl hx
  proper x hx := absurd hx List.not_mem_nil
  handed x hx := absurd hx List.not_mem_nil

theorem refl (s : Stock) : Flow s s [] [] [] := by
  refine counted rfl rfl rfl rfl (fun _ => rfl) ?_
  intro key l l' hl hl'
  cases hl.symm.trans hl'
  exact .refl l

theorem of_eq (h : t = s) : Flow s t [] [] [] := h ▸ refl s

theorem plain (s : Stock) (sends : List (NodeId × Packet)) :
    Flow s { s with plainSends := sends } [] [] [] :=
  { refl s with }

theorem trans (hf : Flow s t p e h) (hg : Flow t u q f k) :
    Flow s u (p ++ q) (e ++ f) (h ++ k) where
  settings := hg.settings.trans hf.settings
  handOvers := by rw [hg.handOvers, hf.handOvers, List.append_assoc]
  expiries := by
    obtain ⟨r, hr, hre⟩ := hf.expiries
    obtain ⟨r', hr', hre'⟩ := hg.expiries
    exact ⟨r ++ r', by rw [hr', hr, List.append_assoc], List.rel_append hre hre'⟩
  up key := (hg.up key).trans (hf.up key)
  booked key l l' hl hl' := by
    obtain ⟨m, hm⟩ : ∃ m, t.accounts key = some m := by
      rw [← Option.isSome_iff_exists, hf.up, hl, Option.isSome_some]
    rw [List.filter_append, List.filter_append]
    exact (hf.booked key l m hl hm).trans (hg.booked key m l' hm hl')
  balance x := by
    have h1 := hf.balance x
    have h2 := hg.balance x
    simp only [settled, List.filter_append, List.map_append, List.count_append] at h1 h2 ⊢
    omega
  waiting hop x hx := by
    -- a packet that waits in the end has been paid for in one of the steps, or waited all along
    rcases hg.waiting hop x hx with hx | ⟨hx, hh⟩
    · rcases hf.waiting hop x hx with hx | ⟨hx, hh⟩
      · exact .inl hx
      · exact .inr ⟨List.mem_append_left _ hx, hh⟩
    · exact .inr ⟨List.mem_append_right _ hx, hh⟩
  proper x hx := by
    rcases List.mem_append.1 hx with hx | hx
    · exact hf.proper x hx
    · obtain ⟨hp, hu⟩ := hg.proper x hx
      exact ⟨(Stock.proper_congr hf.settings x).1 hp, hf.up x.link ▸ hu⟩
  handed x hx := by
    rcases List.mem_append.1 hx with hx | hx
    · exact (hf.handed x hx).imp_left (List.mem_append_left _)
    · rcases hg.handed x hx with hx | hx
      · exact .inl (List.mem_append_right _ hx)
      · rcases hf.waiting _ _ hx with hx | ⟨hx, -⟩
        · exact .inr hx
        · exact .inl (List.mem_append_left _ hx)

/-- Steps in a row of which the second moves nothing. -/
theorem trans_eq (hf : Flow s t p e h) (heq : u = t) : Flow s u p e h := heq ▸ hf

end Flow

/-- A flow leaves each queue in order. -/
theorem Stock.Orderly.of_flow {s t : Stock} {p e : List SecuredPacket} {h : List HandOver}
    (ho : s.Orderly) (hf : Flow s t p e h) : t.Orderly where
  nextHop hop x hx := by
    rcases hf.waiting hop x hx with hx | ⟨-, hh⟩
    · exact ho.nextHop hop x hx
    · exact hh
  proper hop x hx := by
    rw [proper_congr hf.settings]
    rcases hf.waiting hop x hx with hx | ⟨hx, -⟩
    · exact ho.proper hop x hx
    · exact (hf.proper x hx).1
  up hop x hx := by
    rw [hf.up]
    rcases hf.waiting hop x hx with hx | ⟨hx, -⟩
    · exact ho.up hop x hx
    · exact (hf.proper x hx).2

/-! ## The ways out of a queue -/

section Leaving

variable {s : Stock} {p : SecuredPacket} {rest : List SecuredPacket}

/-- Counts in the queues when one packet has left the queue of its next hop. -/
theorem count_withQueue (hq : (s.queue p.nextHop).Perm (p :: rest)) (x : SecuredPacket) :
    ((s.withQueue p.nextHop rest).queue x.nextHop).count x + [p].count x =
      (s.queue x.nextHop).count x := by
  rw [Stock.withQueue_queue]
  by_cases hx : x.nextHop = p.nextHop
  · rw [if_pos hx, hx, hq.count_eq, List.count_cons, List.count_cons, List.count_nil, Nat.zero_add]
  · have hne : p ≠ x := by
      rintro rfl
      exact hx rfl
    rw [if_neg hx, List.count_cons_of_ne hne, List.count_nil, Nat.add_zero]

theorem mem_of_mem_withQueue (hq : (s.queue p.nextHop).Perm (p :: rest)) {hop : NodeId}
    {x : SecuredPacket} (hx : x ∈ (s.withQueue p.nextHop rest).queue hop) : x ∈ s.queue hop := by
  rw [Stock.withQueue_queue] at hx
  split at hx
  · rename_i hh
    exact hh ▸ hq.mem_iff.2 (List.mem_cons_of_mem p hx)
  · exact hx

/-- A packet leaves its queue for the transport, which takes it or refuses it for good. -/
theorem Flow.handOver (hq : (s.queue p.nextHop).Perm (p :: rest)) (failure : Option TransportError)
    (hb : HandOver.isBusy ⟨p, failure⟩ = false) :
    Flow s ((s.withQueue p.nextHop rest).handOver ⟨p, failure⟩) [] [] [⟨p, failure⟩] where
  settings := rfl
  handOvers := rfl
  expiries := ⟨[], (List.append_nil _).symm, .nil⟩
  up _ := rfl
  booked key l l' hl hl' := by
    cases hl.symm.trans hl'
    exact .refl l
  balance x := by
    have := count_withQueue hq x
    simp only [settled, List.filter_cons, hb, List.filter_nil, Stock.handOver] at this ⊢
    simp only [Bool.not_false, if_true, List.map_cons, List.map_nil, List.count_nil]
    omega
  waiting _ _ hx := .inl (mem_of_mem_withQueue hq hx)
  proper _ hx := absurd hx List.not_mem_nil
  handed x hx := by
    rw [List.mem_singleton.1 hx]
    exact .inr (hq.mem_iff.2 List.mem_cons_self)

/-- A packet is handed over to a transport that is too busy for it, and keeps waiting. -/
theorem Flow.heldUp (hq : p ∈ s.queue p.nextHop) (failure : Option TransportError)
    (hb : HandOver.isBusy ⟨p, failure⟩ = true) :
    Flow s (s.handOver ⟨p, failure⟩) [] [] [⟨p, failure⟩] where
  settings := rfl
  handOvers := rfl
  expiries := ⟨[], (List.append_nil _).symm, .nil⟩
  up _ := rfl
  booked key l l' hl hl' := by
    cases hl.symm.trans hl'
    exact .refl l
  balance x := by
    simp only [settled, List.filter_cons, hb, List.filter_nil]
    rfl
  waiting _ _ hx := .inl hx
  proper _ hx := absurd hx List.not_mem_nil
  handed x hx := by
    rw [List.mem_singleton.1 hx]
    exact .inr hq

/-- A packet leaves its queue past its bound. -/
theorem Flow.expire (hq : (s.queue p.nextHop).Perm (p :: rest)) {now : Millis} {e : DelayExceeded}
    (he : p.expiry? now = some e) :
    Flow s ((s.withQueue p.nextHop rest).lose e) [] [p] [] where
  settings := rfl
  handOvers := (List.append_nil _).symm
  expiries := ⟨[e], rfl, .cons ⟨now, he⟩ .nil⟩
  up key := by
    show (if key = e.link then _ else _ : Option Link).isSome = _
    split
    · rw [Option.isSome_map]
      rfl
    · rfl
  booked key l l' hl hl' := by
    replace hl' : (if key = p.link then
        (s.accounts key).map fun l => { l with stats := l.stats.expired }
        else s.accounts key) = some l' := p.link_of_expiry? he ▸ hl'
    rw [hl] at hl'
    by_cases hk : key = p.link
    · rw [if_pos hk] at hl'
      cases hl'
      rw [List.filter_cons_of_pos (by simp [hk])]
      exact ⟨rfl, rfl, rfl, rfl, rfl, rfl, rfl⟩
    · rw [if_neg hk] at hl'
      cases hl'
      rw [List.filter_cons_of_neg (by simpa using fun h => hk h.symm)]
      exact .refl l
  balance x := by
    have := count_withQueue hq x
    simp only [settled, Stock.lose, List.filter_nil, List.map_nil, List.count_nil] at this ⊢
    omega
  waiting _ _ hx := .inl (mem_of_mem_withQueue hq hx)
  proper _ hx := absurd hx List.not_mem_nil
  handed _ hx := absurd hx List.not_mem_nil

end Leaving

end KeyReserve
