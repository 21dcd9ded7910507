import KeyReserve.Proofs.Candidates
import KeyReserve.Proofs.Run
import Mathlib.Data.List.Nodup

/-!
# What a call to send comes to

On a running node that calls have led to, a call to send a secured packet is decided by the
candidates that the protocol offers for it: whether there are any, and which of them is the first
that is payable.

## Main definitions

* `Node.Forwarded`: the packet has been paid for on one candidate, and nothing else has been;
* `Node.Withheld`: the packet has been paid for on none, though there are candidates.

## Main results

* `Node.sendSecured_outcome`: the three outcomes, one of which every call has.
-/

namespace KeyReserve

namespace Node

variable {n : Node} {packet : Packet} {maxDelay : Option Millis} {now : Millis}

/-- The links of the fit ones among some candidates. -/
def fitLinks (n : Node) (cs : List Candidate) : List LinkKey :=
  (cs.filter n.fit).map fun c => n.linkTo c.nextHop

/-- The packet is paid for on the link of a candidate, after a refusal on each fit candidate before
it, and is then sent, or waits, or is refused for good. -/
structure Forwarded (n : Node) (packet : Packet) (maxDelay : Option Millis) (now : Millis)
    (earlier : List Candidate) (c : Candidate) (result : Except NodeError SendOutcome)
    (m : Node) : Prop where
  debited : ∃ l left crossing, n.stock.accounts (n.linkTo c.nextHop) = some l ∧
    l.buffer.debit (n.config.cost.price packet.payload) = .ok (left, crossing) ∧
    left.current.toNat + (n.config.cost.price packet.payload).toNat = l.buffer.current.toNat ∧
    m.stock.accounts (n.linkTo c.nextHop) =
      some (l.debited left (n.prepared packet maxDelay now c))
  /-- Other links are as they were, but for one refusal on each fit candidate passed over. -/
  others : ∀ key ≠ n.linkTo c.nextHop, m.stock.accounts key =
    (n.stock.accounts key).map (·.refused (if key ∈ n.fitLinks earlier then 1 else 0))
  outcome :
    (result = .ok (.sent c.nextHop (n.config.cost.price packet.payload)) ∧
        m.handOvers = n.handOvers ++ [⟨n.prepared packet maxDelay now c, none⟩]) ∨
      (result = .ok (.queued c.nextHop (n.config.cost.price packet.payload)) ∧
        m.queue c.nextHop = n.queue c.nextHop ++ [n.prepared packet maxDelay now c]) ∨
      ∃ e, e.isBusy = false ∧ result = .error (.transport e) ∧
        m.handOvers = n.handOvers ++ [⟨n.prepared packet maxDelay now c, some e⟩]

/-- The packet comes back as it was: no buffer has changed, the destination is marked as out of
reach, and this is recorded. -/
structure Withheld (n : Node) (packet : Packet) (cs : List Candidate)
    (result : Except NodeError SendOutcome) (m : Node) : Prop where
  outcome : result = .ok (.noSecuredRoute packet)
  buffers : ∀ key, m.links.buffer? key = n.links.buffer? key
  refusals : m.links = n.links.refuse (n.fitLinks cs)
  unreachable : m.routing.isUnreachable packet.destination = true
  events : m.events = n.events ++ [.noSecuredRoute packet.destination packet.id]

theorem nodup_fitLinks {cs : List Candidate} (h : (cs.map (·.nextHop)).Nodup) :
    (n.fitLinks cs).Nodup := by
  have hfilter : ((cs.filter n.fit).map (·.nextHop)).Nodup := h.sublist (List.filter_sublist.map _)
  have hinj : Function.Injective n.linkTo := fun _ _ h => LinkKey.join_inj h
  have hkeys := List.Nodup.map hinj hfilter
  rw [List.map_map] at hkeys
  exact hkeys

/-- The link of a candidate is none of those of the candidates before it. -/
theorem not_mem_fitLinks {earlier later : List Candidate} {c : Candidate}
    (h : ((earlier ++ c :: later).map (·.nextHop)).Nodup) :
    n.linkTo c.nextHop ∉ n.fitLinks earlier := by
  intro hmem
  obtain ⟨x, hx, hlink⟩ := List.mem_map.1 hmem
  have hhop : x.nextHop = c.nextHop := LinkKey.join_inj hlink
  rw [List.map_append, List.nodup_append] at h
  exact h.2.2 _ (List.mem_map_of_mem (List.mem_filter.1 hx).1) _
    (List.mem_map_of_mem List.mem_cons_self) hhop

theorem forwarded (hconf : n.Configured) (hrun : n.phase = .running) {q : Protocols}
    {earlier later : List Candidate} {c : Candidate}
    (hcs : n.protocols.candidates n.role packet.destination now = .ok (earlier ++ c :: later, q))
    (hearlier : ∀ x ∈ earlier, n.payable packet x = false) (hc : n.payable packet c = true) :
    n.Forwarded packet maxDelay now earlier c (n.sendSecured packet maxDelay now).1
      (n.sendSecured packet maxDelay now).2 := by
  have hnodup := Protocols.nodup_candidates hcs
  obtain ⟨s, hpaid, hsent⟩ := sendSecured_paid hconf hrun hcs hearlier hc maxDelay
  obtain ⟨l, left, crossing, hl, hd, rfl⟩ := hpaid.debit
  obtain ⟨haccounts, -⟩ := hsent.frame
  generalize n.sendSecured packet maxDelay now = answer at *
  obtain ⟨result, m⟩ := answer
  have hcount : ∀ key, (n.fitLinks earlier).count key =
      if key ∈ n.fitLinks earlier then 1 else 0 := fun key => by
    have hearlier' : (earlier.map (·.nextHop)).Nodup := by
      rw [List.map_append] at hnodup
      exact (List.nodup_append.1 hnodup).1
    exact (nodup_fitLinks hearlier').count
  refine ⟨⟨l, left, crossing, ?_, hd, KeyBuffer.toNat_debit hd, ?_⟩, ?_, ?_⟩
  · have hrefused : (n.stock.accounts (n.linkTo c.nextHop)).map
        (·.refused ((n.fitLinks earlier).count (n.linkTo c.nextHop))) = some l := hl
    rw [hcount, if_neg (not_mem_fitLinks hnodup)] at hrefused
    exact Option.map_id'.symm.trans hrefused
  · rw [haccounts]
    exact if_pos rfl
  · intro key hkey
    rw [haccounts, ← hcount]
    exact if_neg hkey
  · exact hsent.outcome

theorem withheld (hconf : n.Configured) (hrun : n.phase = .running) {q : Protocols}
    {cs : List Candidate} (hcs : n.protocols.candidates n.role packet.destination now = .ok (cs, q))
    (hne : cs ≠ []) (hpay : ∀ c ∈ cs, n.payable packet c = false) :
    n.Withheld packet cs (n.sendSecured packet maxDelay now).1
      (n.sendSecured packet maxDelay now).2 := by
  obtain ⟨appraisals, hsend⟩ := sendSecured_unpaid hconf hrun hcs hne hpay maxDelay
  rw [hsend]
  refine ⟨rfl, ?_, rfl, ?_, rfl⟩
  · intro key
    show ((n.links.refuse (n.fitLinks cs)).find? key).map (·.buffer) = _
    rw [Links.find?_refuse, Option.map_map]
    rfl
  · show ((n.routing.unreachable.insert packet.destination ()).find? packet.destination).isSome = true
    rw [Table.find?_insert, if_pos rfl]
    rfl

theorem plainSends_sendSecured (hconf : n.Configured) :
    (n.sendSecured packet maxDelay now).2.plainSends = n.plainSends := by
  cases hp : n.paidFor packet maxDelay now with
  | some p =>
    obtain ⟨keys, s, hpaid, hsent⟩ := paidFor_eq_some hconf hp
    obtain ⟨l, left, crossing, -, -, rfl⟩ := hpaid.debit
    exact hsent.frame.2
  | none =>
    rcases paidFor_eq_none hconf hp with hs | ⟨keys, hs⟩
    · exact congrArg Stock.plainSends hs
    · exact congrArg Stock.plainSends hs

/-- A call to send a secured packet, on a running node that any calls have led to. The protocol
offers some candidates, and each of the three cases has its outcome: there is none; one of them is
payable, and the first such one is taken; there are some, but none is payable. In no case is
anything sent unsecured. -/
theorem sendSecured_outcome (hn : n.Reachable) (hrun : n.phase = .running) (packet : Packet)
    (maxDelay : Option Millis) (now : Millis) :
    ∃ cs q result m, n.protocols.candidates n.role packet.destination now = .ok (cs, q) ∧
      n.sendSecured packet maxDelay now = (result, m) ∧ m.plainSends = n.plainSends ∧
      ((cs = [] ∧ (∃ requested, result = .ok (.noRoute packet requested)) ∧ m.links = n.links) ∨
        (∃ earlier c later, cs = earlier ++ c :: later ∧
          (∀ x ∈ earlier, n.payable packet x = false) ∧ n.payable packet c = true ∧
          n.Forwarded packet maxDelay now earlier c result m) ∨
        (cs ≠ [] ∧ (∀ c ∈ cs, n.payable packet c = false) ∧ n.Withheld packet cs result m)) := by
  have hconf := hn.sound.configured
  obtain ⟨cs, q, hcs⟩ := Protocols.candidates_ok hconf.installed packet.destination now
  refine ⟨cs, q, (n.sendSecured packet maxDelay now).1, (n.sendSecured packet maxDelay now).2, hcs,
    rfl, plainSends_sendSecured hconf, ?_⟩
  cases hfind : cs.find? (n.payable packet) with
  | some c =>
    obtain ⟨hc, earlier, later, rfl, hearlier⟩ := List.find?_eq_some_iff_append.1 hfind
    have hbefore : ∀ x ∈ earlier, n.payable packet x = false := by
      intro x hx
      simpa using hearlier x hx
    exact .inr (.inl ⟨earlier, c, later, rfl, hbefore, hc, forwarded hconf hrun hcs hbefore hc⟩)
  | none =>
    have hpay : ∀ c ∈ cs, n.payable packet c = false := by
      intro c hc
      exact Bool.eq_false_iff.2 (List.find?_eq_none.1 hfind c hc)
    by_cases hne : cs = []
    · obtain ⟨requested, m, hsend, hlinks, -⟩ := sendSecured_noRoute hrun (hne ▸ hcs) maxDelay
      rw [hsend]
      exact .inl ⟨hne, ⟨requested, rfl⟩, hlinks⟩
    · exact .inr (.inr ⟨hne, hpay, withheld hconf hrun hcs hne hpay⟩)

theorem sendSecured_outcome_pair : ∃ (n : Node) (cs : List Candidate) (q : Protocols)
    (result : Except NodeError SendOutcome) (m : Node), n.Reachable ∧ n.phase = .running ∧
    n.protocols.candidates n.role ⟨2⟩ 100 = .ok (cs, q) ∧
    n.sendSecured ⟨⟨7⟩, ⟨2⟩, 20⟩ none 100 = (result, m) ∧ m.plainSends = n.plainSends ∧
    ((cs = [] ∧ (∃ requested, result = .ok (.noRoute ⟨⟨7⟩, ⟨2⟩, 20⟩ requested)) ∧
        m.links = n.links) ∨
      (∃ earlier c later, cs = earlier ++ c :: later ∧
        (∀ x ∈ earlier, n.payable ⟨⟨7⟩, ⟨2⟩, 20⟩ x = false) ∧
        n.payable ⟨⟨7⟩, ⟨2⟩, 20⟩ c = true ∧
        n.Forwarded ⟨⟨7⟩, ⟨2⟩, 20⟩ none 100 earlier c result m) ∨
      (cs ≠ [] ∧ (∀ c ∈ cs, n.payable ⟨⟨7⟩, ⟨2⟩, 20⟩ c = false) ∧
        n.Withheld ⟨⟨7⟩, ⟨2⟩, 20⟩ cs result m)) := by
  obtain ⟨n, hn, hrun⟩ : ∃ n, create .pair .accepting = .ok n ∧ (n.run [.start 0]).phase = .running :=
    ⟨_, rfl, rfl⟩
  have hreachable : (n.run [.start 0]).Reachable := (Reachable.created hn).run [.start 0]
  obtain ⟨cs, q, result, m, houtcome⟩ :=
    sendSecured_outcome hreachable hrun ⟨⟨7⟩, ⟨2⟩, 20⟩ none 100
  exact ⟨_, cs, q, result, m, hreachable, hrun, houtcome⟩

end Node

end KeyReserve
