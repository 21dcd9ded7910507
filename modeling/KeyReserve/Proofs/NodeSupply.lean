import KeyReserve.Proofs.NodeWatch
import KeyReserve.Proofs.Supply

/-!
# The supplies of a node

The supply of a link of a node is what the node holds of it in its links, on its charger, on its
record and in the history of its transport. Only charging, debits and links that come up or go down
touch a supply at all; packets that wait, routes and the other timers leave every supply as it is.

## Main definitions

* `Node.supply`: the supply of a link of a node.

## Main results

* `Node.supply_abandonCharging`, `Node.asked_requestCharge`, `Node.checked_chargeIfLow`: a session
  is given up, the transport is asked, and a link is checked;
* `Node.checked_tick`: a tick checks every link;
* `Node.served_chargingRound`: the timer of a round fires.
-/

namespace KeyReserve

namespace Node

/-- The supply of a link of the node. -/
def supply (n : Node) (key : LinkKey) : Supply :=
  { buffer := n.links.buffer? key
    session := n.charger.session? key
    record := n.events.filter (·.charges key)
    asked := n.transport.history.filter (·.charges key) }

open Supply

variable (n : Node) (key : LinkKey)

/-! ## Steps that leave supplies alone -/

theorem supply_record_aside {e : Event} (h : e.charges key = false) :
    (n.record e).supply key = n.supply key := by
  simp [supply, record, List.filter_append, h]

/-- An event about charging is recorded for its link only. -/
theorem supply_record {e : Event} {link : LinkKey} (h : ∀ k, e.charges k = decide (link = k)) :
    (n.record e).supply key =
      if key = link then { n.supply link with record := (n.supply link).record ++ [e] }
      else n.supply key := by
  split
  · rename_i hk
    subst hk
    simp [supply, record, List.filter_append, h]
  · rename_i hk
    exact n.supply_record_aside key ((h key).trans (decide_eq_false fun heq => hk heq.symm))

theorem supply_submit {r : Request} (h : ∀ f, (Exchange.mk r f).charges key = false) :
    (n.submit r).2.supply key = n.supply key := by
  simp [supply, submit, Transport.submit, h]

@[simp] theorem supply_cancelTimer (id : Option TimerId) :
    (n.cancelTimer id).supply key = n.supply key := by
  cases id <;> rfl

@[simp] theorem supply_schedule (due : Millis) (timer : Timer) :
    (n.schedule due timer).2.supply key = n.supply key := rfl

/-- What a link counts is no part of its supply. -/
@[simp] theorem supply_count (link : LinkKey) (f : LinkStats → LinkStats) :
    (n.count link f).supply key = n.supply key := by
  have h : (n.count link f).links.buffer? key = n.links.buffer? key := by
    show ((n.links.modify link _).find? key).map Link.buffer = _
    rw [Links.find?_modify, Links.buffer?]
    split
    · rename_i hk
      rw [hk, Option.map_map]
      rfl
    · rfl
  simp only [supply, h]
  rfl

@[simp] theorem supply_armDeadline (p : SecuredPacket) (notBefore : Millis) :
    (n.armDeadline p notBefore).supply key = n.supply key := by
  unfold armDeadline
  split
  · rfl
  · simp only
    split <;> split <;> rfl

@[simp] theorem supply_disarmDeadline (packet : PacketId) :
    (n.disarmDeadline packet).supply key = n.supply key := by
  unfold disarmDeadline
  rw [supply_cancelTimer]
  rfl

@[simp] theorem supply_recordExpired (e : DelayExceeded) :
    (n.recordExpired e).supply key = n.supply key := by
  rw [recordExpired, supply_record_aside _ _ rfl, supply_count]

theorem supply_submit_secured (p : SecuredPacket) :
    (n.submit (.secured p)).2.supply key = n.supply key :=
  n.supply_submit key fun _ => rfl

/-- A packet that waits is no part of a supply. -/
theorem supply_enqueue (p : SecuredPacket) : (n.enqueue p).supply key = n.supply key :=
  n.supply_armDeadline key p 0

theorem supply_dispatch (p : SecuredPacket) : (n.dispatch p).2.supply key = n.supply key := by
  have hs := n.supply_submit_secured key p
  unfold dispatch
  split
  · split <;> rename_i hm <;> rw [hm] at hs
    · exact hs
    · split
      · exact (supply_enqueue _ key p).trans hs
      · exact hs
  · exact n.supply_enqueue key p

theorem supply_sendWaiting (now : Millis) (ps : List SecuredPacket) :
    (n.sendWaiting now ps).2.2.supply key = n.supply key := by
  induction ps generalizing n with
  | nil => rfl
  | cons p ps ih =>
    have hs := n.supply_submit_secured key p
    rw [sendWaiting]
    split
    · rw [ih, supply_recordExpired, supply_disarmDeadline]
    · split <;> rename_i hm <;> rw [hm] at hs
      · exact ((ih _).trans (supply_disarmDeadline _ _ _)).trans hs
      · split
        · exact hs
        · exact ((ih _).trans (supply_disarmDeadline _ _ _)).trans hs

theorem supply_linkReady (nextHop : NodeId) (now : Millis) :
    (n.linkReady nextHop now).2.supply key = n.supply key :=
  (n.setQueue nextHop []).supply_sendWaiting key now (n.queue nextHop)

theorem supply_expireWaiting (link : LinkKey) (packet : PacketId) (now : Millis) :
    (n.expireWaiting link packet now).supply key = n.supply key := by
  unfold expireWaiting
  split
  · simp only
    split
    · rfl
    · split
      · rfl
      · split
        · exact supply_recordExpired _ _ _
        · exact supply_armDeadline _ _ _ _
  · rfl

theorem supply_requestRoute (destination : NodeId) (now : Millis) :
    (n.requestRoute destination now).2.supply key = n.supply key := by
  unfold requestRoute
  split
  · rfl
  · rfl
  · rename_i r q _
    have hs := { n with protocols := q }.supply_submit key (r := .route r) fun _ => rfl
    split <;> rename_i hm <;> rw [hm] at hs <;> exact hs

theorem supply_sendBestEffort (packet : Packet) (now : Millis) :
    (n.sendBestEffort packet now).2.supply key = n.supply key := by
  unfold sendBestEffort
  split
  · rfl
  · split
    · rfl
    · rename_i cs q _
      simp only
      split
      · exact supply_requestRoute _ _ _ now
      · rename_i best _
        have hs := { n with
          protocols := q
          routing := (n.routing.rank cs .bestEffort n.links now).2 }.supply_submit key
            (r := .plain best.candidate.nextHop packet) fun _ => rfl
        split <;> rename_i hm <;> rw [hm] at hs <;> exact hs

theorem supply_scheduleTick (now : Millis) : (n.scheduleTick now).supply key = n.supply key := by
  unfold scheduleTick
  simp only
  split <;> rfl

/-! ## Charging -/

/-- A charger with another session on one link. -/
theorem supply_charger {c : Charger} (link : LinkKey)
    (h : ∀ k, c.session? k = if k = link then c.session? link else n.charger.session? k) :
    { n with charger := c }.supply key =
      if key = link then { n.supply link with session := c.session? link } else n.supply key := by
  by_cases hk : key = link
  · subst hk
    rw [if_pos rfl]
    rfl
  · have hs := h key
    rw [if_neg hk] at hs
    rw [if_neg hk, supply, hs]
    rfl

theorem supply_insertSession (link : LinkKey) (s : Session) (c : Charger)
    (hc : c.sessions = n.charger.sessions.insert link s) :
    { n with charger := c }.supply key =
      if key = link then { n.supply link with session := some s } else n.supply key := by
  have hself : c.session? link = some s := by
    rw [Charger.session?, hc, Table.find?_insert, if_pos rfl]
  rw [n.supply_charger key link, hself]
  intro k
  rw [hself, Charger.session?, hc, Table.find?_insert]
  rfl

theorem supply_eraseSession (link : LinkKey) (c : Charger)
    (hc : c.sessions = n.charger.sessions.erase link) :
    { n with charger := c }.supply key =
      if key = link then { n.supply link with session := none } else n.supply key := by
  have hself : c.session? link = none := by
    rw [Charger.session?, hc, Table.find?_erase, if_pos rfl]
  rw [n.supply_charger key link, hself]
  intro k
  rw [hself, Charger.session?, hc, Table.find?_erase]
  rfl

theorem supply_abandonCharging {link : LinkKey} {s : Session}
    (hs : n.charger.session? link = some s) (reason : String) :
    (n.abandonCharging link reason).2.supply key =
      if key = link then
        { n.supply link with
          session := none
          record := (n.supply link).record ++ [.chargingAbandoned link s.id s.delivered reason] }
      else n.supply key := by
  unfold abandonCharging Charger.abandon
  rw [show n.charger.sessions.find? link = some s from hs]
  simp only [Option.map_some]
  have herase := fun k => n.supply_eraseSession k link
    { n.charger with sessions := n.charger.sessions.erase link } rfl
  rw [supply_record _ _ fun _ => rfl]
  simp only [supply_count, supply_cancelTimer, herase, if_true]
  split <;> rfl

theorem abandonCharging_of_none {link : LinkKey} (hs : n.charger.session? link = none)
    (reason : String) : (n.abandonCharging link reason).2 = n := by
  unfold abandonCharging Charger.abandon
  rw [show n.charger.sessions.find? link = none from hs]
  rfl

/-- A session is given up, if one is open on the link. -/
theorem served_abandonCharging (link : LinkKey) (reason : String) (size : Bytes) :
    Served key size (n.supply key) ((n.abandonCharging link reason).2.supply key) := by
  cases hs : n.charger.session? link with
  | none =>
    rw [n.abandonCharging_of_none hs]
    exact .still
  | some s =>
    rw [n.supply_abandonCharging key hs]
    split
    · rename_i hk
      subst hk
      exact .givenUp hs reason
    · exact .still

theorem requestCharge_of_taken {link : LinkKey} {bytes : Bytes} {now : Millis}
    (h : n.transport.answer n.transport.history (.charge link bytes now) = none) :
    n.requestCharge link bytes now = (n.submit (.charge link bytes now)).2 := by
  unfold requestCharge submit Transport.submit
  simp only [h]

theorem requestCharge_of_refused {link : LinkKey} {bytes : Bytes} {now : Millis}
    {e : TransportError}
    (h : n.transport.answer n.transport.history (.charge link bytes now) = some e) :
    n.requestCharge link bytes now =
      ((n.submit (.charge link bytes now)).2.abandonCharging link e.message).2 := by
  unfold requestCharge submit Transport.submit
  simp only [h]

theorem asked_requestCharge {link : LinkKey} {s : Session}
    (hs : n.charger.session? link = some s) (bytes : Bytes) (now : Millis) :
    Asked link s bytes (n.supply link) ((n.requestCharge link bytes now).supply link) := by
  have hsubmit : (n.submit (.charge link bytes now)).2.supply link =
      { n.supply link with
        asked := ⟨.charge link bytes now,
          n.transport.answer n.transport.history (.charge link bytes now)⟩ ::
            (n.supply link).asked } := by
    have hasks : ∀ f, (Exchange.mk (.charge link bytes now) f).charges link = true := fun _ =>
      decide_eq_true rfl
    simp only [supply, submit, Transport.submit, List.filter_cons_of_pos (hasks _)]
  cases ha : n.transport.answer n.transport.history (.charge link bytes now) with
  | none =>
    rw [n.requestCharge_of_taken ha, hsubmit, ha]
    have htaken : Asked link s bytes (n.supply link) _ := .taken now
    rw [← hs] at htaken
    exact htaken
  | some e =>
    have hopen : (n.submit (.charge link bytes now)).2.charger.session? link = some s := hs
    rw [n.requestCharge_of_refused ha, supply_abandonCharging _ _ hopen, if_pos rfl, hsubmit, ha]
    exact .refused now e

theorem supply_requestCharge_of_ne {link : LinkKey} (h : key ≠ link) (bytes : Bytes)
    (now : Millis) : (n.requestCharge link bytes now).supply key = n.supply key := by
  have hsubmit : (n.submit (.charge link bytes now)).2.supply key = n.supply key :=
    n.supply_submit key fun _ => decide_eq_false fun hk => h hk.symm
  cases ha : n.transport.answer n.transport.history (.charge link bytes now) with
  | none => rw [n.requestCharge_of_taken ha, hsubmit]
  | some e =>
    rw [n.requestCharge_of_refused ha, ← hsubmit]
    cases hs : (n.submit (.charge link bytes now)).2.charger.session? link with
    | none => rw [abandonCharging_of_none _ hs]
    | some s => rw [supply_abandonCharging _ _ hs, if_neg h]

theorem supply_opening (link : LinkKey) (s : Session) :
    (n.opening link s).supply key =
      if key = link then
        { n.supply link with
          session := some s
          record := (n.supply link).record ++ [.chargingStarted link s.id s.target] }
      else n.supply key := by
  have hinsert := fun k => n.supply_insertSession k link s { n.charger with
    sessions := n.charger.sessions.insert link s
    nextSession := n.charger.nextSession + 1 } rfl
  rw [opening, supply_record _ _ fun _ => rfl]
  simp only [hinsert, if_true]
  split <;> rfl

theorem chargeIfLow_of_idle {link : LinkKey} {b : KeyBuffer} (hb : n.links.buffer? link = some b)
    (hlow : b.isBelowThreshold = true) (hs : n.charger.session? link = none) (now : Millis) :
    ∃ s, s.Fresh b ∧ n.chargeIfLow link now =
      (n.opening link s).requestCharge link (s.roundSize n.charger.sendSize) now :=
  ⟨_, ⟨rfl, rfl, rfl, n.charger.targetFor_pos hlow, n.charger.targetFor_le_headroom b⟩,
    n.chargeIfLow_of_low hb hlow hs rfl⟩

theorem chargeIfLow_of_busy {link : LinkKey} (h : ∀ b, n.links.buffer? link = some b →
      b.isBelowThreshold = true → n.charger.session? link ≠ none) (now : Millis) :
    n.chargeIfLow link now = n :=
  n.chargeIfLow_of_not (fun _ hl hlow => h _ (congrArg (Option.map Link.buffer) hl) hlow) now

theorem checked_chargeIfLow (link : LinkKey) (now : Millis) :
    Checked link n.charger.sendSize (n.supply link) ((n.chargeIfLow link now).supply link) := by
  by_cases h : ∃ b, n.links.buffer? link = some b ∧ b.isBelowThreshold = true ∧
      n.charger.session? link = none
  · obtain ⟨b, hb, hlow, hs⟩ := h
    obtain ⟨s, hfresh, hcharge⟩ := n.chargeIfLow_of_idle hb hlow hs now
    have hopen : (n.opening link s).charger.session? link = some s :=
      Charger.session?_insert n.charger link s
    have hasked := asked_requestCharge _ hopen (s.roundSize n.charger.sendSize) now
    rw [supply_opening, if_pos rfl] at hasked
    rw [hcharge]
    exact .opened hb hlow hs hfresh hasked
  · have hnot : ∀ b, n.links.buffer? link = some b → b.isBelowThreshold = true →
        n.charger.session? link ≠ none := fun b hb hlow hs => h ⟨b, hb, hlow, hs⟩
    rw [n.chargeIfLow_of_busy hnot]
    exact .idle hnot

theorem supply_chargeIfLow_of_ne {link : LinkKey} (h : key ≠ link) (now : Millis) :
    (n.chargeIfLow link now).supply key = n.supply key := by
  by_cases hi : ∃ b, n.links.buffer? link = some b ∧ b.isBelowThreshold = true ∧
      n.charger.session? link = none
  · obtain ⟨b, hb, hlow, hs⟩ := hi
    obtain ⟨s, -, hcharge⟩ := n.chargeIfLow_of_idle hb hlow hs now
    rw [hcharge, supply_requestCharge_of_ne _ _ h, supply_opening, if_neg h]
  · rw [n.chargeIfLow_of_busy fun b hb hlow hs => hi ⟨b, hb, hlow, hs⟩]

theorem sendSize_chargeIfLow (link : LinkKey) (now : Millis) :
    (n.chargeIfLow link now).charger.sendSize = n.charger.sendSize :=
  congrArg (·.settings.sendSize) (n.stock_chargeIfLow link now)

/-- A drop is followed by a check of its link. -/
theorem levelCrossed_of_drop {x : Crossing} (hx : x.isDrop = true) (link : LinkKey)
    (now : Millis) :
    n.levelCrossed link x now = { n.record (.levelChanged link x) with
      routing := (n.routing.forgetLink link).2 }.chargeIfLow link now := by
  unfold levelCrossed
  simp only [hx, if_true]
  rfl

theorem supply_crossing (link : LinkKey) (x : Crossing) :
    { n.record (.levelChanged link x) with
      routing := (n.routing.forgetLink link).2 }.supply key = n.supply key :=
  n.supply_record_aside key rfl

/-- The keys of a table differ, so each link is checked once. -/
theorem checked_tick (now : Millis) :
    Checked key n.charger.sendSize (n.supply key) ((n.tick now).supply key) := by
  have hothers : ∀ (keys : List LinkKey) (m : Node), key ∉ keys →
      (keys.foldl (fun n k => n.chargeIfLow k now) m).supply key = m.supply key := by
    intro keys
    induction keys with
    | nil => exact fun _ _ => rfl
    | cons k ks ih =>
      intro m hnot
      rw [List.mem_cons, not_or] at hnot
      exact (ih _ hnot.2).trans (m.supply_chargeIfLow_of_ne key hnot.1 now)
  have hcharge : ∀ (keys : List LinkKey) (m : Node), keys.Nodup → key ∈ keys →
      Checked key m.charger.sendSize (m.supply key)
        ((keys.foldl (fun n k => n.chargeIfLow k now) m).supply key) := by
    intro keys
    induction keys with
    | nil => exact fun _ _ hmem => absurd hmem List.not_mem_nil
    | cons k ks ih =>
      intro m hnodup hmem
      obtain ⟨hk, hks⟩ := List.nodup_cons.1 hnodup
      rw [List.foldl_cons]
      by_cases heq : key = k
      · subst heq
        rw [hothers ks _ hk]
        exact m.checked_chargeIfLow key now
      · have hlater := ih (m.chargeIfLow k now) hks ((List.mem_cons.1 hmem).resolve_left heq)
        rw [m.supply_chargeIfLow_of_ne key heq, m.sendSize_chargeIfLow] at hlater
        exact hlater
  have hnodup : n.links.keys.Nodup := by
    refine n.links.keys_pairwise.imp ?_
    rintro a b hlt rfl
    exact Nat.lt_irrefl _ hlt
  show Checked _ _ _ ((n.links.keys.foldl (fun n k => n.chargeIfLow k now) n).supply key)
  by_cases hmem : key ∈ n.links.keys
  · exact hcharge _ _ hnodup hmem
  · rw [hothers _ _ hmem]
    refine .idle fun b hb => absurd hb ?_
    rw [Table.mem_keys_iff, Bool.not_eq_true, Option.isSome_eq_false_iff, Option.isNone_iff_eq_none]
      at hmem
    show (n.links.find? key).map Link.buffer ≠ _
    rw [hmem]
    nofun

/-- The timer of a round fires for its link: the transport is asked for the next round. -/
theorem served_chargingRound (link : LinkKey) (now : Millis) :
    Served key n.charger.sendSize (n.supply key) ((n.chargingRound link now).supply key) := by
  unfold chargingRound
  cases hs : n.charger.session? link with
  | none =>
    have hnone : n.charger.sessions.find? link = none := hs
    simp only [Charger.takeFollowUp, Charger.nextRound, hnone, Option.map_none]
    exact .still
  | some s =>
    have hopen : n.charger.sessions.find? link = some s := hs
    have hself : (n.charger.sessions.insert link { s with followUp := none }).find? link =
        some { s with followUp := none } := Charger.session?_insert n.charger link _
    simp only [Charger.takeFollowUp, Charger.nextRound, hopen, hself, Option.map_some]
    have hinsert := n.supply_insertSession key link { s with followUp := none } { n.charger with
      sessions := n.charger.sessions.insert link { s with followUp := none } } rfl
    by_cases hk : key = link
    · subst hk
      rw [if_pos rfl] at hinsert
      have hasked := asked_requestCharge { n with charger := { n.charger with
        sessions := n.charger.sessions.insert key { s with followUp := none } } } hself
        (s.roundSize n.charger.sendSize) now
      rw [hinsert] at hasked
      exact .round hs hasked.of_session
    · rw [supply_requestCharge_of_ne _ _ hk, hinsert, if_neg hk]
      exact .still

end Node

end KeyReserve
