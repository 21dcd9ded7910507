import KeyReserve.Proofs.Payment

/-!
# The outcome of a call to send

A call to send a secured packet ends in one of three ways: there is no candidate, there are some
but none that is payable, or the packet is paid for on the first that is.

## Main results

* `Node.sendSecured_noRoute`, `Node.sendSecured_unpaid`, `Node.sendSecured_paid`: the three ways;
* `Node.flow_sendSecured`: what a call to send moves.
-/

namespace KeyReserve

namespace Node

variable (n : Node)

@[simp] theorem stock_refuse (keys : List LinkKey) :
    { n with links := n.links.refuse keys }.stock = n.stock.refuse keys := by
  have h : ∀ key, ((n.links.refuse keys).find? key).map Link.account =
      ((n.links.find? key).map Link.account).map (·.refused (keys.count key)) := by
    intro key
    rw [Links.find?_refuse, Option.map_map, Option.map_map]
    rfl
  simp only [stock, Stock.refuse, h]
  rfl

@[simp] theorem stock_insert (key : LinkKey) (l : Link) :
    { n with links := n.links.insert key l }.stock = n.stock.withAccount key l.account := by
  have h : ∀ k, ((n.links.insert key l).find? k).map Link.account =
      if k = key then some l.account else (n.links.find? k).map Link.account := by
    intro k
    rw [Table.find?_insert]
    split <;> rfl
  simp only [stock, Stock.withAccount, h]
  rfl

/-- The first candidate that can pay does, those before it having counted a refusal each. -/
theorem payOnFirst_paid (packet : Packet) {earlier : List RankedRoute} (later : List RankedRoute)
    {r : RankedRoute} (hearlier : ∀ x ∈ earlier, n.affords packet x.candidate = false)
    (hr : n.affords packet r.candidate = true) :
    ∃ crossing m, n.payOnFirst packet (earlier ++ r :: later) =
        (some ⟨n.priced packet r.candidate, crossing⟩, m) ∧ m.config = n.config ∧
      (n.stock.refuse (earlier.map fun x => n.linkTo x.candidate.nextHop)).Paid m.stock
        (n.priced packet r.candidate) := by
  rw [n.payOnFirst_append packet (r :: later) hearlier]
  generalize earlier.map (fun x => n.linkTo x.candidate.nextHop) = keys
  obtain ⟨l, hl⟩ : ∃ l, n.links.find? (n.linkTo r.candidate.nextHop) = some l := by
    cases hl : n.links.find? (n.linkTo r.candidate.nextHop) with
    | none => rw [affords, hl] at hr; cases hr
    | some l => exact ⟨l, rfl⟩
  have hl' : (n.links.refuse keys).find? (n.linkTo r.candidate.nextHop) =
      some (l.refused (keys.count (n.linkTo r.candidate.nextHop))) := by
    rw [Links.find?_refuse, hl, Option.map_some]
  obtain ⟨left, crossing, hdebit⟩ := KeyBuffer.exists_debit ((affords_iff hl).1 hr)
  refine ⟨crossing, _,
    payOnFirst_cons { n with links := n.links.refuse keys } packet later hl' hdebit, rfl,
    ⟨rfl, rfl, rfl, rfl⟩,
    (l.refused (keys.count (n.linkTo r.candidate.nextHop))).account, left, crossing, ?_, hdebit, ?_⟩
  · show ((n.links.find? (n.linkTo r.candidate.nextHop)).map Link.account).map _ = _
    rw [hl]
    rfl
  · rw [stock_insert, stock_refuse]
    rfl

/-- What follows from the debit leaves the stock alone. -/
theorem dispatched_sendPaid (secured : Secured) (maxDelay : Option Millis) (now : Millis) :
    n.stock.Dispatched (secured.packet.tagged (maxDelay.getD n.config.delay.defaultMaxDelay) now)
      (n.sendPaid secured maxDelay now).1 (n.sendPaid secured maxDelay now).2.stock := by
  cases hc : secured.crossing with
  | none =>
    rw [sendPaid, hc]
    exact n.dispatched _
  | some crossing =>
    have hs := n.stock_levelCrossed secured.packet.link crossing now
    have hconfig : (n.levelCrossed secured.packet.link crossing now).config = n.config :=
      congrArg (·.settings.config) hs
    rw [sendPaid, hc]
    simp only
    rw [← hs, hconfig]
    exact dispatched _ _

theorem stock_requestRoute (destination : NodeId) (now : Millis) :
    (n.requestRoute destination now).2.stock = n.stock := by
  unfold requestRoute
  cases h : n.protocols.request n.role destination now with
  | error e => rfl
  | ok answer =>
    obtain ⟨request, protocols⟩ := answer
    have hp := n.stock_protocols (Protocols.request_settings h)
    cases request with
    | none => exact hp
    | some r =>
      have hs := { n with protocols }.stock_submit (r := .route r) (fun _ => rfl) (fun _ => rfl)
      simp only
      split <;> rename_i hm <;> rw [hm] at hs <;> exact hs.trans hp

theorem links_requestRoute (destination : NodeId) (now : Millis) :
    (n.requestRoute destination now).2.links = n.links := by
  unfold requestRoute
  split
  · rfl
  · rfl
  · split <;> rename_i hm <;> exact congrArg (·.2.links) hm.symm

/-- A check finds a candidate viable for secured traffic just where it is fit. -/
theorem viable_evaluate {n : Node} (h : n.Configured) (c : Candidate) (now : Millis) :
    (n.routing.evaluate c.route .secured n.links now).viable = n.fit c := by
  have hhome : n.routing.home = n.id := congrArg Settings.home h
  have hmin : n.routing.securedMin = n.config.routing.securedMin := congrArg Settings.securedMin h
  show viable .secured (n.links.buffer? (c.route.link n.routing.home)) n.routing.securedMin = _
  rw [hhome, hmin, fit, Links.buffer?]
  show viable .secured ((n.links.find? (n.linkTo c.nextHop)).map (·.buffer)) _ = _
  cases n.links.find? (n.linkTo c.nextHop) with
  | none => rfl
  | some l => simp only [Option.map_some, viable, l.buffer.available_pos_iff]

/-- A candidate with what a check for secured traffic finds. -/
def checked (n : Node) (now : Millis) (c : Candidate) : RankedRoute :=
  ⟨c, n.routing.evaluate c.route .secured n.links now⟩

/-- The routes that secured traffic may take are those over the fit candidates, in their order. -/
theorem filter_checked {n : Node} (h : n.Configured) (cs : List Candidate) (now : Millis) :
    (cs.map (n.checked now)).filter (·.appraisal.viable) =
      (cs.filter n.fit).map (n.checked now) := by
  rw [List.filter_map]
  congr 1
  refine List.filter_congr fun c _ => ?_
  exact viable_evaluate h c now

variable {n : Node} {packet : Packet} {now : Millis} {q : Protocols}

theorem sendSecured_noRoute (hrun : n.phase = .running)
    (hcs : n.protocols.candidates n.role packet.destination now = .ok ([], q))
    (maxDelay : Option Millis) :
    ∃ requested m, n.sendSecured packet maxDelay now = (.ok (.noRoute packet requested), m) ∧
      m.links = n.links ∧ m.stock = n.stock := by
  have hs := (stock_requestRoute { n with protocols := q } packet.destination now).trans
    (n.stock_protocols (Protocols.candidates_settings hcs))
  have hl := links_requestRoute { n with protocols := q } packet.destination now
  cases hr : { n with protocols := q }.requestRoute packet.destination now with
  | mk requested m =>
    rw [hr] at hs hl
    refine ⟨requested, m, ?_, hl, hs⟩
    rw [sendSecured, if_neg (not_not.2 hrun)]
    simp only [hcs, List.isEmpty_nil, if_true, hr]

/-- The node once it has found routes to walk over: the destination is no longer out of reach. -/
def selected (n : Node) (q : Protocols) (appraisals : Table (Route × TrafficClass) Appraisal)
    (destination : NodeId) : Node :=
  { n with
    protocols := q
    routing := { n.routing with
      appraisals
      unreachable := n.routing.unreachable.erase destination } }

theorem stock_selected (hq : q.settings = n.protocols.settings)
    (appraisals : Table (Route × TrafficClass) Appraisal) (destination : NodeId) :
    (n.selected q appraisals destination).stock = n.stock :=
  n.stock_protocols hq

/-- Where there are candidates, those that are fit are walked over. -/
theorem sendSecured_walk (hconf : n.Configured) (hrun : n.phase = .running) {cs : List Candidate}
    (hcs : n.protocols.candidates n.role packet.destination now = .ok (cs, q)) (hne : cs ≠ [])
    (maxDelay : Option Millis) :
    ∃ appraisals,
      (cs.filter n.fit = [] ∧
        n.sendSecured packet maxDelay now =
          (.ok (.noSecuredRoute packet),
            { n with
              protocols := q
              routing := { n.routing with
                appraisals
                unreachable := n.routing.unreachable.insert packet.destination () }
              events := n.events ++ [.noSecuredRoute packet.destination packet.id] })) ∨
      (n.sendSecured packet maxDelay now =
        match (n.selected q appraisals packet.destination).payOnFirst packet
            ((cs.filter n.fit).map (n.checked now)) with
        | (some secured, n) => n.sendPaid secured maxDelay now
        | (none, n) =>
          (.ok (.noSecuredRoute packet),
            { n with
              routing := (n.routing.markUnreachable packet.destination).2
              events := n.events ++ [.noSecuredRoute packet.destination packet.id] })) := by
  have hempty : cs.isEmpty = false := by
    rw [List.isEmpty_eq_false_iff]
    exact hne
  obtain ⟨a, hselect⟩ := n.routing.select_eq packet.destination hne n.links now
    (filter_checked hconf cs now).symm
  refine ⟨a, ?_⟩
  rw [sendSecured, if_neg (not_not.2 hrun)]
  simp only [hcs, hempty, Bool.false_eq_true, if_false]
  rcases hselect with ⟨hnone, others, hsel⟩ | ⟨hsome, hsel⟩
  · rw [hsel]
    exact .inl ⟨List.map_eq_nil_iff.1 hnone, rfl⟩
  · rw [hsel]
    exact .inr rfl

theorem unaffordable_of_fit {c : Candidate} (hfit : n.fit c = true)
    (hpay : n.payable packet c = false) : n.affords packet c = false := by
  rw [payable, hfit, Bool.true_and] at hpay
  exact hpay

theorem sendSecured_unpaid (hconf : n.Configured) (hrun : n.phase = .running)
    {cs : List Candidate} (hcs : n.protocols.candidates n.role packet.destination now = .ok (cs, q))
    (hne : cs ≠ []) (hpay : ∀ c ∈ cs, n.payable packet c = false) (maxDelay : Option Millis) :
    ∃ appraisals, n.sendSecured packet maxDelay now =
      (.ok (.noSecuredRoute packet),
        { n with
          protocols := q
          routing := { n.routing with
            appraisals
            unreachable := n.routing.unreachable.insert packet.destination () }
          links := n.links.refuse ((cs.filter n.fit).map fun c => n.linkTo c.nextHop)
          events := n.events ++ [.noSecuredRoute packet.destination packet.id] }) := by
  obtain ⟨a, ⟨hnofit, hsend⟩ | hsend⟩ := sendSecured_walk hconf hrun hcs hne maxDelay
  · refine ⟨a, ?_⟩
    rw [hsend, hnofit]
    rfl
  · refine ⟨a, ?_⟩
    have hwalk := (n.selected q a packet.destination).payOnFirst_unpaid packet
      ((cs.filter n.fit).map (n.checked now)) (by
        intro r hr
        obtain ⟨c, hc, rfl⟩ := List.mem_map.1 hr
        obtain ⟨hmem, hfit⟩ := List.mem_filter.1 hc
        exact unaffordable_of_fit hfit (hpay c hmem))
    rw [hsend, hwalk, List.map_map]
    have hmark : (n.routing.unreachable.erase packet.destination).insert packet.destination () =
        n.routing.unreachable.insert packet.destination () := by
      refine Table.ext_find? fun d => ?_
      rw [Table.find?_insert, Table.find?_insert, Table.find?_erase]
      split <;> rfl
    simp only [selected, KeyAware.markUnreachable, hmark]
    rfl

/-- The packet is paid for on the first candidate that is payable, the fit ones before it having
counted a refusal each, and is then dispatched. -/
theorem sendSecured_paid (hconf : n.Configured) (hrun : n.phase = .running)
    {earlier later : List Candidate} {c : Candidate}
    (hcs : n.protocols.candidates n.role packet.destination now = .ok (earlier ++ c :: later, q))
    (hearlier : ∀ x ∈ earlier, n.payable packet x = false) (hc : n.payable packet c = true)
    (maxDelay : Option Millis) :
    ∃ s, (n.stock.refuse ((earlier.filter n.fit).map fun x => n.linkTo x.nextHop)).Paid s
        (n.prepared packet maxDelay now c) ∧
      s.Dispatched (n.prepared packet maxDelay now c) (n.sendSecured packet maxDelay now).1
        (n.sendSecured packet maxDelay now).2.stock := by
  obtain ⟨hfit, haffords⟩ := Bool.and_eq_true_iff.1 hc
  have hne : earlier ++ c :: later ≠ [] := List.append_ne_nil_of_right_ne_nil _ (List.cons_ne_nil c _)
  have hsplit : (earlier ++ c :: later).filter n.fit =
      earlier.filter n.fit ++ c :: later.filter n.fit := by
    rw [List.filter_append, List.filter_cons_of_pos hfit]
  obtain ⟨a, ⟨hnofit, -⟩ | hsend⟩ := sendSecured_walk hconf hrun hcs hne maxDelay
  · rw [hsplit] at hnofit
    exact absurd hnofit (List.append_ne_nil_of_right_ne_nil _ (List.cons_ne_nil c _))
  have hrefused : ∀ r ∈ (earlier.filter n.fit).map (n.checked now),
      (n.selected q a packet.destination).affords packet r.candidate = false := by
    intro r hr
    obtain ⟨x, hx, rfl⟩ := List.mem_map.1 hr
    obtain ⟨hmem, hxfit⟩ := List.mem_filter.1 hx
    exact unaffordable_of_fit hxfit (hearlier x hmem)
  obtain ⟨crossing, m, hwalk, hconfig, hpaid⟩ :=
    (n.selected q a packet.destination).payOnFirst_paid packet (r := n.checked now c)
      ((later.filter n.fit).map (n.checked now)) hrefused haffords
  rw [hsplit, List.map_append, List.map_cons, hwalk] at hsend
  rw [stock_selected (Protocols.candidates_settings hcs), List.map_map] at hpaid
  have hsent := m.dispatched_sendPaid
    ⟨(n.selected q a packet.destination).priced packet c, crossing⟩ maxDelay now
  rw [hconfig] at hsent
  refine ⟨m.stock, hpaid.tagged _ now, ?_⟩
  rw [hsend]
  exact hsent

/-! ## What a call to send moves -/

theorem stock_sendSecured_unpaid (hconf : n.Configured) (hrun : n.phase = .running)
    {cs : List Candidate} (hcs : n.protocols.candidates n.role packet.destination now = .ok (cs, q))
    (hne : cs ≠ []) (hpay : ∀ c ∈ cs, n.payable packet c = false) (maxDelay : Option Millis) :
    (n.sendSecured packet maxDelay now).2.stock =
      n.stock.refuse ((cs.filter n.fit).map fun c => n.linkTo c.nextHop) := by
  obtain ⟨a, hsend⟩ := sendSecured_unpaid hconf hrun hcs hne hpay maxDelay
  rw [hsend]
  have hselected := stock_selected (Protocols.candidates_settings hcs) a packet.destination
  rw [← hselected, ← stock_refuse]
  exact stock_record (e := .noSecuredRoute packet.destination packet.id)
    { n.selected q a packet.destination with
      links := n.links.refuse ((cs.filter n.fit).map fun c => n.linkTo c.nextHop) } rfl

theorem offered_eq {cs : List Candidate} {destination : NodeId}
    (hcs : n.protocols.candidates n.role destination now = .ok (cs, q)) :
    n.offered destination now = cs := by
  rw [offered, hcs]

theorem paidFor_eq_some (hconf : n.Configured) {maxDelay : Option Millis} {p : SecuredPacket}
    (hp : n.paidFor packet maxDelay now = some p) :
    ∃ keys s, (n.stock.refuse keys).Paid s p ∧
      s.Dispatched p (n.sendSecured packet maxDelay now).1
        (n.sendSecured packet maxDelay now).2.stock := by
  unfold paidFor at hp
  split at hp
  · rename_i hrun
    obtain ⟨cs, q, hcs⟩ := Protocols.candidates_ok hconf.installed packet.destination now
    rw [offered_eq hcs] at hp
    obtain ⟨c, hfind, rfl⟩ := Option.map_eq_some_iff.1 hp
    obtain ⟨hc, earlier, later, rfl, hearlier⟩ := List.find?_eq_some_iff_append.1 hfind
    obtain ⟨s, hpaid, hsent⟩ := sendSecured_paid hconf hrun hcs
      (fun x hx => by simpa using hearlier x hx) hc maxDelay
    exact ⟨_, s, hpaid, hsent⟩
  · cases hp

/-- Where nothing is paid for, at most refusals are counted. -/
theorem paidFor_eq_none (hconf : n.Configured) {maxDelay : Option Millis}
    (hp : n.paidFor packet maxDelay now = none) :
    (n.sendSecured packet maxDelay now).2.stock = n.stock ∨
      ∃ keys, (n.sendSecured packet maxDelay now).2.stock = n.stock.refuse keys := by
  unfold paidFor at hp
  split at hp
  · rename_i hrun
    obtain ⟨cs, q, hcs⟩ := Protocols.candidates_ok hconf.installed packet.destination now
    rw [offered_eq hcs, Option.map_eq_none_iff, List.find?_eq_none] at hp
    have hpay : ∀ c ∈ cs, n.payable packet c = false := fun c hc => Bool.eq_false_iff.2 (hp c hc)
    by_cases hne : cs = []
    · obtain ⟨requested, m, hsend, -, hs⟩ := sendSecured_noRoute hrun (hne ▸ hcs) maxDelay
      rw [hsend]
      exact .inl hs
    · exact .inr ⟨_, stock_sendSecured_unpaid hconf hrun hcs hne hpay maxDelay⟩
  · rename_i hrun
    rw [sendSecured, if_pos hrun]
    exact .inl rfl

/-- A call to send moves the packet that it pays for, if it pays for one, and no other. -/
theorem flow_sendSecured (hconf : n.Configured) (packet : Packet) (maxDelay : Option Millis)
    (now : Millis) :
    ∃ handed, Flow n.stock (n.sendSecured packet maxDelay now).2.stock
      (n.paidFor packet maxDelay now).toList [] handed := by
  cases hp : n.paidFor packet maxDelay now with
  | none =>
    refine ⟨[], ?_⟩
    rcases paidFor_eq_none hconf hp with hs | ⟨keys, hs⟩
    · exact .of_eq hs
    · rw [hs]
      exact .refuse n.stock keys
  | some p =>
    obtain ⟨keys, s, hpaid, hsent⟩ := paidFor_eq_some hconf hp
    obtain ⟨handed, hflow⟩ := hsent.flow
    exact ⟨_, (Flow.refuse n.stock keys).trans (hpaid.flow.trans hflow)⟩

end Node

end KeyReserve
