import KeyReserve.Node.Sending
import KeyReserve.Proofs.Waiting

/-!
# Paying for a packet

A secured packet goes over the first candidate that is fit for secured traffic and can pay for it.
Fit are the candidates whose link is up with the least level for secured traffic and something
above its floor; a fit candidate before the one taken counts a refusal, any other is passed over.

## Main definitions

* `Node.fit`, `Node.affords`, `Node.payable`: what is asked of the link of a candidate;
* `Node.priced`, `Node.prepared`, `Node.paidFor`: the packet that a call to send pays for;
* `Links.refuse`, `Stock.refuse`: links that have counted refusals;
* `Stock.Paid`: the step from a stock to the one in which a packet has been paid for.

## Main results

* `Stock.Paid.flow`: a packet that has been paid for joins the queue of its next hop;
* `Node.payOnFirst_append`, `Node.payOnFirst_cons`: the walk over the candidates;
* `KeyAware.select_eq`: the candidates that are left to walk over.
-/

namespace KeyReserve

/-! ## Refusals and debits -/

/-- A link that has counted some more refusals. -/
def Link.refused (l : Link) (times : Nat) : Link :=
  { l with stats := { l.stats with packetsRejected := l.stats.packetsRejected + times } }

/-- A link on which a packet has been paid for, with what is left in its buffer. -/
def Link.debited (l : Link) (left : KeyBuffer) (p : SecuredPacket) : Link :=
  { l with buffer := left, stats := l.stats.secured p.packet.payload p.cost }

namespace Stock

variable (s : Stock)

/-- The stock once a packet has been refused on each of some links, one after the other. -/
def refuse (keys : List LinkKey) : Stock :=
  { s with accounts := fun key => (s.accounts key).map (·.refused (keys.count key)) }

/-- The stock with another state of a link that is up. -/
def withAccount (key : LinkKey) (l : Link) : Stock :=
  { s with accounts := fun k => if k = key then some l else s.accounts k }

/-- A packet has been paid for: its price has been taken out of the buffer of its link. -/
structure Paid (s t : Stock) (p : SecuredPacket) : Prop where
  proper : s.Proper p
  debit : ∃ l left crossing, s.accounts p.link = some l ∧
    l.buffer.debit p.cost = .ok (left, crossing) ∧ t = s.withAccount p.link (l.debited left p)

end Stock

theorem Flow.refuse (s : Stock) (keys : List LinkKey) : Flow s (s.refuse keys) [] [] [] := by
  refine Flow.counted rfl rfl rfl rfl (fun _ => Option.isSome_map) ?_
  intro key l l' hl hl'
  have h : (s.refuse keys).accounts key = some (l.refused (keys.count key)) := by
    show (s.accounts key).map _ = _
    rw [hl, Option.map_some]
  cases h.symm.trans hl'
  exact ⟨rfl, rfl, rfl, rfl, rfl, rfl, rfl⟩

/-- A link that is up counts something else than packets. -/
theorem Flow.account {s : Stock} {key : LinkKey} {l l' : Link} (hl : s.accounts key = some l)
    (hb : l.Booked l' [] []) : Flow s (s.withAccount key l') [] [] [] := by
  refine Flow.counted rfl rfl rfl rfl ?_ ?_
  · intro k
    show (if k = key then some l' else s.accounts k : Option Link).isSome = _
    split
    · rename_i hk
      rw [hk, hl]
      rfl
    · rfl
  · intro k m m' hm hm'
    replace hm' : (if k = key then some l' else s.accounts k) = some m' := hm'
    split at hm'
    · rename_i hk
      cases hm'
      cases hl.symm.trans (hk ▸ hm)
      exact hb
    · cases hm.symm.trans hm'
      exact .refl m

theorem KeyBuffer.exists_debit {b : KeyBuffer} {amount : Bytes} (h : amount ≤ b.available) :
    ∃ left crossing, b.debit amount = .ok (left, crossing) := by
  unfold debit
  rw [dif_pos h]
  exact ⟨_, _, rfl⟩

theorem KeyBuffer.toNat_debit {b left : KeyBuffer} {amount : Bytes} {crossing : Option Crossing}
    (h : b.debit amount = .ok (left, crossing)) :
    left.current.toNat + amount.toNat = b.current.toNat := by
  obtain ⟨hle, -, -, -, hcur, -⟩ := debit_eq_ok_iff.1 h
  rw [UInt64.le_iff_toNat_le, toNat_available] at hle
  have hamount : amount.toNat ≤ b.current.toNat := by omega
  rw [hcur, UInt64.toNat_sub_of_le _ _ (UInt64.le_iff_toNat_le.2 hamount)]
  omega

theorem KeyBuffer.toNat_credit_eq_add (b : KeyBuffer) (amount : Bytes) :
    (b.credit amount).1.current.toNat = b.current.toNat + (b.credit amount).2.applied.toNat := by
  have hle := UInt64.le_iff_toNat_le.1 b.current_le_maximum
  rw [toNat_credit]
  show _ = b.current.toNat + (b.fitting amount).toNat
  rw [toNat_fitting, toNat_headroom]
  omega

/-- What a link counts when key material comes in is what has fitted into its buffer. -/
theorem Link.booked_charged (l : Link) (amount : Bytes) :
    l.Booked { l with
      buffer := (l.buffer.credit amount).1
      stats := l.stats.charged (l.buffer.credit amount).2.applied } [] [] := by
  have hcur := l.buffer.toNat_credit_eq_add amount
  refine ⟨rfl, rfl, rfl, ?_, rfl, rfl, rfl⟩
  simp only [openingLevel, LinkStats.charged, hcur]
  omega

/-- What a link counts when a packet is paid for on it. -/
theorem Link.booked_debited {l : Link} {left : KeyBuffer} {crossing : Option Crossing}
    {p : SecuredPacket} (h : l.buffer.debit p.cost = .ok (left, crossing)) :
    l.Booked (l.debited left p) [p] [] := by
  obtain ⟨-, hmin, hthr, hmax, -, -⟩ := KeyBuffer.debit_eq_ok_iff.1 h
  have hleft := KeyBuffer.toNat_debit h
  refine ⟨hmin, hthr, hmax, ?_, rfl, rfl, rfl⟩
  simp only [Link.openingLevel, Link.debited, LinkStats.secured]
  omega

/-- The bound on the age of a packet has no part in its payment. -/
theorem Stock.Paid.tagged {s t : Stock} {p : SecuredPacket} (h : s.Paid t p) (maxDelay now : Millis) :
    s.Paid t (p.tagged maxDelay now) :=
  ⟨⟨h.proper.link, h.proper.cost, h.proper.encryption, h.proper.authentication⟩, h.debit⟩

/-- A packet that has been paid for joins the queue of its next hop. -/
theorem Stock.Paid.flow {s t : Stock} {p : SecuredPacket} (h : s.Paid t p) :
    Flow s (t.withQueue p.nextHop (t.queue p.nextHop ++ [p])) [p] [] [] := by
  obtain ⟨l, left, crossing, hl, hd, rfl⟩ := h.debit
  exact {
    settings := rfl
    handOvers := (List.append_nil _).symm
    expiries := ⟨[], (List.append_nil _).symm, .nil⟩
    up := fun key => by
      show (if key = p.link then some _ else s.accounts key : Option Link).isSome = _
      split
      · rename_i hk
        rw [hk, hl]
        rfl
      · rfl
    booked := fun key k k' hk hk' => by
      replace hk' : (if key = p.link then some (l.debited left p) else s.accounts key) = some k' :=
        hk'
      by_cases heq : key = p.link
      · rw [if_pos heq] at hk'
        cases hk'
        cases hl.symm.trans (heq ▸ hk)
        rw [List.filter_cons_of_pos (by simp [heq])]
        exact Link.booked_debited hd
      · rw [if_neg heq, hk] at hk'
        cases hk'
        rw [List.filter_cons_of_neg (by simpa using fun h => heq h.symm)]
        exact .refl k
    balance := fun x => by
      rw [Stock.withQueue_queue]
      split
      · rename_i hx
        rw [hx, List.count_append]
        exact (Nat.zero_add _).trans (Nat.add_comm _ _)
      · rename_i hx
        have hne : p ≠ x := by
          rintro rfl
          exact hx rfl
        rw [List.count_cons_of_ne hne]
        rfl
    waiting := fun hop x hx => by
      rw [Stock.withQueue_queue] at hx
      split at hx
      · rename_i hh
        rcases List.mem_append.1 hx with hx | hx
        · exact .inl (hh ▸ hx)
        · cases List.mem_singleton.1 hx
          exact .inr ⟨List.mem_cons_self, hh.symm⟩
      · exact .inl hx
    proper := fun x hx => by
      cases List.mem_singleton.1 hx
      exact ⟨h.proper, by rw [hl]; rfl⟩
    handed := fun _ hx => absurd hx List.not_mem_nil }

namespace Links

/-- The links once a packet has been refused on each of some, one after the other. -/
def refuse (ls : Links) (keys : List LinkKey) : Links :=
  keys.foldl (fun ls key => ls.modify key fun l => { l with stats := l.stats.rejected }) ls

@[simp] theorem refuse_nil (ls : Links) : ls.refuse [] = ls := rfl

theorem refuse_cons (ls : Links) (key : LinkKey) (keys : List LinkKey) :
    ls.refuse (key :: keys) =
      (ls.modify key fun l => { l with stats := l.stats.rejected }).refuse keys := rfl

theorem modify_of_none {ls : Links} {key : LinkKey} (h : ls.find? key = none) (f : Link → Link) :
    ls.modify key f = ls := by
  rw [modify, h]

theorem modify_of_some {ls : Links} {key : LinkKey} {l : Link} (h : ls.find? key = some l)
    (f : Link → Link) : ls.modify key f = ls.insert key (f l) := by
  rw [modify, h]

/-- Each link has counted one refusal for each time it was named. -/
theorem find?_refuse (ls : Links) (keys : List LinkKey) (key : LinkKey) :
    (ls.refuse keys).find? key = (ls.find? key).map (·.refused (keys.count key)) := by
  induction keys generalizing ls with
  | nil => exact Option.map_id'.symm
  | cons k ks ih =>
    rw [refuse_cons, ih, find?_modify]
    by_cases hk : key = k
    · rw [if_pos hk, hk, List.count_cons_self, Option.map_map]
      congr 1
      funext l
      simp only [Function.comp, Link.refused, LinkStats.rejected, Nat.add_assoc, Nat.add_comm 1]
    · rw [if_neg hk, List.count_cons_of_ne fun h => hk h.symm]

end Links

/-! ## Candidates -/

namespace Node

/-- Whether the link of a candidate is up, meets the least level for secured traffic and lies above
its floor. -/
def fit (n : Node) (c : Candidate) : Bool :=
  match n.links.find? (n.linkTo c.nextHop) with
  | none => false
  | some l =>
    n.config.routing.securedMin ≤ l.buffer.current && l.buffer.minimum < l.buffer.current

/-- Whether the link of a candidate is up and the price of a packet lies above its floor. -/
def affords (n : Node) (packet : Packet) (c : Candidate) : Bool :=
  match n.links.find? (n.linkTo c.nextHop) with
  | none => false
  | some l =>
    (n.config.cost.price packet.payload).toNat ≤ l.buffer.current.toNat - l.buffer.minimum.toNat

/-- Whether a packet can be sent over a candidate. -/
def payable (n : Node) (packet : Packet) (c : Candidate) : Bool := n.fit c && n.affords packet c

/-- The packet as it is paid for over a candidate. -/
def priced (n : Node) (packet : Packet) (c : Candidate) : SecuredPacket :=
  { packet
    link := n.linkTo c.nextHop
    nextHop := c.nextHop
    encryption := n.config.cost.encryption
    authentication := n.config.cost.authentication
    cost := n.config.cost.price packet.payload }

/-- The packet as it is dispatched once it has been paid for, with the bound on its age. -/
def prepared (n : Node) (packet : Packet) (maxDelay : Option Millis) (now : Millis)
    (c : Candidate) : SecuredPacket :=
  (n.priced packet c).tagged (maxDelay.getD n.config.delay.defaultMaxDelay) now

/-- The candidates that the protocol in use has for a destination, in its native order. -/
def offered (n : Node) (destination : NodeId) (now : Millis) : List Candidate :=
  match n.protocols.candidates n.role destination now with
  | .ok (cs, _) => cs
  | .error _ => []

/-- The packet that a call to send pays for, if it pays for any. -/
def paidFor (n : Node) (packet : Packet) (maxDelay : Option Millis) (now : Millis) :
    Option SecuredPacket :=
  if n.phase = .running then
    ((n.offered packet.destination now).find? (n.payable packet)).map
      (n.prepared packet maxDelay now)
  else
    none

/-! ## The walk over the candidates -/

theorem affords_iff {n : Node} {packet : Packet} {c : Candidate} {l : Link}
    (hl : n.links.find? (n.linkTo c.nextHop) = some l) :
    n.affords packet c = true ↔ n.config.cost.price packet.payload ≤ l.buffer.available := by
  rw [affords, hl, UInt64.le_iff_toNat_le, KeyBuffer.toNat_available]
  exact decide_eq_true_iff

/-- A link keeps its buffer when it counts a refusal, so it affords what it did. -/
theorem affords_refuse (n : Node) (packet : Packet) (keys : List LinkKey) (c : Candidate) :
    { n with links := n.links.refuse keys }.affords packet c = n.affords packet c := by
  show (match (n.links.refuse keys).find? (n.linkTo c.nextHop) with
    | none => false
    | some l => decide ((n.config.cost.price packet.payload).toNat ≤
        l.buffer.current.toNat - l.buffer.minimum.toNat)) = _
  rw [Links.find?_refuse, affords]
  cases n.links.find? (n.linkTo c.nextHop) <;> rfl

/-- A candidate that cannot pay is passed over, and its link counts a refusal if it is up. -/
theorem payOnFirst_refused (n : Node) (packet : Packet) {r : RankedRoute} (rs : List RankedRoute)
    (h : n.affords packet r.candidate = false) :
    n.payOnFirst packet (r :: rs) =
      { n with links := n.links.refuse [n.linkTo r.candidate.nextHop] }.payOnFirst packet rs := by
  rw [payOnFirst, Links.refuse_cons, Links.refuse_nil]
  cases hl : n.links.find? (n.linkTo r.candidate.nextHop) with
  | none => rw [Links.modify_of_none hl]
  | some l =>
    have hnot : ¬ n.config.cost.price packet.payload ≤ l.buffer.available :=
      (affords_iff hl).not.1 (Bool.eq_false_iff.1 h)
    rw [Links.modify_of_some hl]
    simp only [Link.secure, KeyBuffer.debit, dif_neg hnot]

theorem payOnFirst_append (n : Node) (packet : Packet) {early : List RankedRoute}
    (late : List RankedRoute) (h : ∀ r ∈ early, n.affords packet r.candidate = false) :
    n.payOnFirst packet (early ++ late) =
      { n with
        links := n.links.refuse
          (early.map fun (r : RankedRoute) => n.linkTo r.candidate.nextHop) }.payOnFirst
        packet late := by
  induction early generalizing n with
  | nil => rfl
  | cons r rs ih =>
    have hr := h r List.mem_cons_self
    rw [List.cons_append, n.payOnFirst_refused packet (rs ++ late) hr]
    refine ih _ ?_
    intro q hq
    rw [affords_refuse]
    exact h q (List.mem_cons_of_mem r hq)

theorem payOnFirst_unpaid (n : Node) (packet : Packet) (rs : List RankedRoute)
    (h : ∀ r ∈ rs, n.affords packet r.candidate = false) :
    n.payOnFirst packet rs =
      (none, { n with links := n.links.refuse (rs.map fun r => n.linkTo r.candidate.nextHop) }) := by
  have := n.payOnFirst_append packet [] h
  rwa [List.append_nil] at this

/-- The first candidate that can pay does. -/
theorem payOnFirst_cons (n : Node) (packet : Packet) {r : RankedRoute} (rs : List RankedRoute)
    {l : Link} (hl : n.links.find? (n.linkTo r.candidate.nextHop) = some l) {b : KeyBuffer}
    {crossing : Option Crossing}
    (hb : l.buffer.debit (n.config.cost.price packet.payload) = .ok (b, crossing)) :
    n.payOnFirst packet (r :: rs) =
      (some ⟨n.priced packet r.candidate, crossing⟩,
        { n with
          links := n.links.insert (n.linkTo r.candidate.nextHop)
            (l.debited b (n.priced packet r.candidate)) }) := by
  rw [payOnFirst]
  simp only [hl, Link.secure, hb]
  rfl

end Node

/-! ## The candidates to walk over -/

namespace KeyAware

/-- The selection among some candidates: those that their check finds viable, in their order. -/
theorem select_eq (k : KeyAware) (destination : NodeId) {cs : List Candidate} (hcs : cs ≠ [])
    (links : Links) (now : Millis) {viable : List RankedRoute}
    (hv : viable = (cs.map fun x => (⟨x, k.evaluate x.route .secured links now⟩ :
      RankedRoute)).filter (·.appraisal.viable)) :
    ∃ a, (viable = [] ∧ ∃ others, k.select destination cs links now =
        (.noViableRoute others,
          { k with appraisals := a, unreachable := k.unreachable.insert destination () })) ∨
      (viable ≠ [] ∧ k.select destination cs links now =
        (.routes viable,
          { k with appraisals := a, unreachable := k.unreachable.erase destination })) := by
  obtain ⟨a, ha⟩ := k.appraiseAll_settings .secured links now cs
  have hrank : (k.rank cs .secured links now).2 = { k with appraisals := a } := ha
  have hviable : (k.rank cs .secured links now).1.filter (·.appraisal.viable) = viable :=
    (k.filter_rank (fun _ _ ha _ => RankedRoute.mayPrecede_of_viable ha) cs .secured links
      now).trans hv.symm
  have hne : cs.isEmpty = false := by
    rw [List.isEmpty_eq_false_iff]
    exact hcs
  refine ⟨a, ?_⟩
  unfold select
  simp only [hne, Bool.false_eq_true, if_false, hrank, hviable]
  by_cases h : viable = []
  · refine .inl ⟨h, ?_⟩
    simp [h, markUnreachable]
  · refine .inr ⟨h, ?_⟩
    simp [h]

end KeyAware

end KeyReserve
