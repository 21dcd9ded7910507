import KeyReserve.Proofs.Calls

/-!
# The course of a charging session

While a session is open, deliveries raise the level of its buffer and traffic lowers it, in any
order. The target of the session is fixed when it opens, at what fits then; what traffic takes out
afterwards is not added to it. So a session without a cap ends when its target is delivered, and
its buffer is full then only where the last delivery brings enough to make good all that traffic
has taken out meanwhile.

## Main definitions

* `Charger.Course`: an open session, with all that was delivered and debited since it was opened;
* `Charger.Standing`: the session and the level that a course leads to.

## Main results

* `Charger.Course.standing`: no delivery of an open session is cut, so that the level is exact;
* `Charger.Standing.delivery`: the next delivery ends the session where it reaches the target;
* `Node.chargeDelivered_records`: a node records the end of a session where its charger ends it;
* `Charger.Course.completed_full_iff`: the end of a session without a cap, and whether its buffer is
  full then.
-/

namespace KeyReserve

theorem KeyBuffer.isFull_iff_toNat_headroom (b : KeyBuffer) :
    b.isFull = true ↔ b.headroom.toNat = 0 := by
  have hle := UInt64.le_iff_toNat_le.1 b.current_le_maximum
  rw [isFull, decide_eq_true_eq, toNat_headroom, ← UInt64.toNat_inj]
  omega

namespace Charger

/-- A session on a link has been opened by a charger on a buffer, and is still open. In the meantime
bytes were delivered and debited, and the charger has set its timers and served other links. -/
inductive Course (c₀ : Charger) (link : LinkKey) (b₀ : KeyBuffer) :
    Charger → KeyBuffer → (inflow outflow : Nat) → Prop where
  | opened {c : Charger} {now : Millis} {o : SessionOpened}
      (h : c₀.openIfLow link b₀ now = (c, some o)) : Course c₀ link b₀ c b₀ 0 0
  | delivered {c c' : Charger} {b b' : KeyBuffer} {inflow outflow : Nat} {bytes next : Bytes}
      {d : Delivery} (hc : Course c₀ link b₀ c b inflow outflow)
      (h : c.receive link b bytes = .ok (c', b', d)) (hd : d.progress = .goesOn next) :
      Course c₀ link b₀ c' b' (inflow + bytes.toNat) outflow
  | debited {c : Charger} {b b' : KeyBuffer} {inflow outflow : Nat} {amount : Bytes}
      {crossing : Option Crossing} (hc : Course c₀ link b₀ c b inflow outflow)
      (h : b.debit amount = .ok (b', crossing)) :
      Course c₀ link b₀ c b' inflow (outflow + amount.toNat)
  | roundSet {c c' : Charger} {b : KeyBuffer} {inflow outflow : Nat} {timer : TimerId}
      {replaced : Option TimerId} (hc : Course c₀ link b₀ c b inflow outflow)
      (h : c.setFollowUp link timer = .ok (c', replaced)) :
      Course c₀ link b₀ c' b inflow outflow
  | roundDue {c : Charger} {b : KeyBuffer} {inflow outflow : Nat}
      (hc : Course c₀ link b₀ c b inflow outflow) :
      Course c₀ link b₀ (c.takeFollowUp link).1 b inflow outflow
  | elsewhere {c c' : Charger} {b : KeyBuffer} {inflow outflow : Nat}
      (hc : Course c₀ link b₀ c b inflow outflow) (h : c'.session? link = c.session? link) :
      Course c₀ link b₀ c' b inflow outflow

/-- The session on a link and the level of its buffer, after what was delivered and debited. -/
structure Standing (c₀ : Charger) (link : LinkKey) (b₀ : KeyBuffer) (c : Charger) (b : KeyBuffer)
    (inflow outflow : Nat) : Prop where
  session : ∃ s, c.session? link = some s ∧ s.target = c₀.targetFor b₀ ∧
    s.delivered.toNat = inflow
  short : inflow < (c₀.targetFor b₀).toNat
  maximum : b.maximum = b₀.maximum
  level : b.current.toNat + outflow = b₀.current.toNat + inflow

/-! ## Single operations -/

/-- The target is what fits, but at most the total amount, unless that is zero. -/
theorem toNat_targetFor (c : Charger) (b : KeyBuffer) :
    (c.targetFor b).toNat =
      if c.totalAmount = 0 then b.headroom.toNat
      else min b.headroom.toNat c.totalAmount.toNat := by
  simp only [targetFor, UInt64.lt_iff_toNat_lt, ← UInt64.toNat_inj, UInt64.toNat_zero]
  split <;> split <;> omega

theorem targetFor_le_headroom (c : Charger) (b : KeyBuffer) :
    (c.targetFor b).toNat ≤ b.headroom.toNat := by
  rw [toNat_targetFor]
  split
  · exact Nat.le_refl _
  · exact Nat.min_le_left _ _

theorem targetFor_eq_headroom {c : Charger} (h : c.totalAmount = 0) (b : KeyBuffer) :
    c.targetFor b = b.headroom := by
  rw [← UInt64.toNat_inj, toNat_targetFor, if_pos h]

/-- There is something to be delivered to a low buffer. -/
theorem targetFor_pos (c : Charger) {b : KeyBuffer} (h : b.isBelowThreshold = true) :
    0 < (c.targetFor b).toNat := by
  have hlow := UInt64.lt_iff_toNat_lt.1 (of_decide_eq_true h)
  have hmax := UInt64.le_iff_toNat_le.1 b.threshold_le_maximum
  have hroom := b.toNat_headroom
  rw [toNat_targetFor]
  split
  · omega
  · rename_i hcapped
    rw [← UInt64.toNat_inj, UInt64.toNat_zero] at hcapped
    omega

theorem session?_insert (c : Charger) (link : LinkKey) (s : Session) :
    ({ c with sessions := c.sessions.insert link s } : Charger).session? link = some s := by
  rw [session?, Table.find?_insert, if_pos rfl]

theorem session?_setFollowUp {c c' : Charger} {link : LinkKey} {timer : TimerId}
    {replaced : Option TimerId} (h : c.setFollowUp link timer = .ok (c', replaced)) :
    c'.session? link = (c.session? link).map ({ · with followUp := some timer }) := by
  unfold setFollowUp at h
  cases hs : c.sessions.find? link with
  | none =>
    rw [hs] at h
    cases h
  | some s =>
    rw [hs] at h
    cases h
    rw [session?_insert, session?, hs, Option.map_some]

theorem session?_takeFollowUp (c : Charger) (link : LinkKey) :
    (c.takeFollowUp link).1.session? link =
      (c.session? link).map ({ · with followUp := none }) := by
  unfold takeFollowUp
  cases hs : c.sessions.find? link with
  | none => simp [session?, hs]
  | some s =>
    simp only [session?_insert]
    rw [session?, hs, Option.map_some]

/-- A session opens on low buffers only, with its target fixed and nothing delivered. -/
theorem openIfLow_eq_some {c₀ c : Charger} {link : LinkKey} {b : KeyBuffer} {now : Millis}
    {o : SessionOpened} (h : c₀.openIfLow link b now = (c, some o)) :
    b.isBelowThreshold = true ∧ c.session? link =
      some { id := ⟨c₀.nextSession⟩, target := c₀.targetFor b, startedAt := now } := by
  unfold openIfLow at h
  split at h
  · cases h
  · rename_i hlow
    cases h
    rw [Bool.or_eq_true, not_or, Bool.not_eq_true', Bool.not_eq_false] at hlow
    refine ⟨hlow.1, ?_⟩
    rw [session?, Table.find?_insert, if_pos rfl]

/-- A delivery to an open session succeeds. It ends the session where it fills the buffer or leaves
nothing to be delivered, and is recorded on the session otherwise. -/
theorem receive_of_session {c : Charger} {link : LinkKey} {s : Session}
    (hs : c.session? link = some s) (b : KeyBuffer) (bytes : Bytes) :
    ∃ c' d, c.receive link b bytes = .ok (c', (b.credit bytes).1, d) ∧
      if (b.credit bytes).1.isFull = true ∨
          (s.recordDelivery bytes (b.credit bytes).2.applied).remaining = 0 then
        d.progress = .completed (s.recordDelivery bytes (b.credit bytes).2.applied)
      else
        (∃ next, d.progress = .goesOn next) ∧
          c'.session? link = some (s.recordDelivery bytes (b.credit bytes).2.applied) := by
  rw [session?] at hs
  unfold receive
  rw [hs]
  simp only [Bool.or_eq_true, decide_eq_true_eq]
  split
  · exact ⟨_, _, rfl, rfl⟩
  · exact ⟨_, _, rfl, ⟨_, rfl⟩, session?_insert _ _ _⟩

/-! ## Where a session stands -/

section

variable {c₀ c : Charger} {link : LinkKey} {b₀ b : KeyBuffer} {inflow outflow : Nat}

theorem Standing.opened {now : Millis} {o : SessionOpened}
    (h : c₀.openIfLow link b₀ now = (c, some o)) : Standing c₀ link b₀ c b₀ 0 0 := by
  obtain ⟨hlow, hs⟩ := openIfLow_eq_some h
  exact ⟨⟨_, hs, rfl, rfl⟩, c₀.targetFor_pos hlow, rfl, rfl⟩

theorem Standing.of_session {s : Session} (h : Standing c₀ link b₀ c b inflow outflow)
    (hs : c.session? link = some s) :
    s.target = c₀.targetFor b₀ ∧ s.delivered.toNat = inflow := by
  obtain ⟨s', hs', hsession⟩ := h.session
  cases hs.symm.trans hs'
  exact hsession

/-- The room that a delivery leaves in the buffer: what traffic has taken out needs to be made good
before the buffer is full. -/
theorem Standing.headroom (h : Standing c₀ link b₀ c b inflow outflow) (bytes : Bytes) :
    (b.credit bytes).1.headroom.toNat =
      b₀.headroom.toNat + outflow - (inflow + bytes.toNat) := by
  have hmax : (b.credit bytes).1.maximum = b₀.maximum := h.maximum
  have hlevel := h.level
  have hfirst := UInt64.le_iff_toNat_le.1 b₀.current_le_maximum
  have hnow := UInt64.le_iff_toNat_le.1 b.current_le_maximum
  rw [h.maximum] at hnow
  rw [KeyBuffer.toNat_headroom, KeyBuffer.toNat_headroom, KeyBuffer.toNat_credit, hmax, h.maximum]
  omega

/-- What a delivery leaves to be delivered does not depend on the traffic. -/
theorem Standing.remaining (h : Standing c₀ link b₀ c b inflow outflow) {s : Session}
    (hs : c.session? link = some s) (bytes applied : Bytes) :
    (s.recordDelivery bytes applied).remaining.toNat =
      (c₀.targetFor b₀).toNat - (inflow + bytes.toNat) := by
  obtain ⟨htarget, hdelivered⟩ := h.of_session hs
  have hrem : (s.recordDelivery bytes applied).remaining.toNat =
      s.target.toNat - min (inflow + bytes.toNat) (UInt64.size - 1) := by
    rw [Session.toNat_remaining, ← hdelivered, ← UInt64.toNat_addSat]
    rfl
  have hrange := s.target.toNat_lt
  rw [UInt64.size] at hrem
  rw [htarget] at hrange
  rw [hrem, htarget]
  omega

/-- A delivery that the target has room for is not cut, and the session goes on. -/
theorem Standing.delivered {c' : Charger} {s : Session} {bytes applied : Bytes}
    (h : Standing c₀ link b₀ c b inflow outflow) (hs : c.session? link = some s)
    (hs' : c'.session? link = some (s.recordDelivery bytes applied))
    (hlt : inflow + bytes.toNat < (c₀.targetFor b₀).toNat) :
    Standing c₀ link b₀ c' (b.credit bytes).1 (inflow + bytes.toNat) outflow := by
  obtain ⟨hfixed, hdelivered⟩ := h.of_session hs
  refine ⟨⟨_, hs', hfixed, ?_⟩, hlt, h.maximum, ?_⟩
  · have hrange := (c₀.targetFor b₀).toNat_lt
    show (s.delivered.addSat bytes).toNat = _
    rw [UInt64.toNat_addSat, hdelivered, UInt64.size]
    omega
  · have htarget := c₀.targetFor_le_headroom b₀
    have hlevel := h.level
    have hfirst := UInt64.le_iff_toNat_le.1 b₀.current_le_maximum
    rw [KeyBuffer.toNat_headroom] at htarget
    rw [KeyBuffer.toNat_credit, h.maximum]
    omega

/-- The next delivery ends the session exactly where the target is reached with it. -/
theorem Standing.delivery (h : Standing c₀ link b₀ c b inflow outflow) (bytes : Bytes) :
    ∃ c' d, c.receive link b bytes = .ok (c', (b.credit bytes).1, d) ∧
      if (c₀.targetFor b₀).toNat ≤ inflow + bytes.toNat then
        ∃ s, d.progress = .completed s
      else
        (∃ next, d.progress = .goesOn next) ∧
          Standing c₀ link b₀ c' (b.credit bytes).1 (inflow + bytes.toNat) outflow := by
  obtain ⟨s, hs, -⟩ := h.session
  obtain ⟨c', d, hreceive, hprogress⟩ := receive_of_session hs b bytes
  refine ⟨c', d, hreceive, ?_⟩
  have hremaining := h.remaining hs bytes (b.credit bytes).2.applied
  -- the first test adds nothing to the second: a full buffer has got its target
  have hends : ((b.credit bytes).1.isFull = true ∨
      (s.recordDelivery bytes (b.credit bytes).2.applied).remaining = 0) ↔
        (c₀.targetFor b₀).toNat ≤ inflow + bytes.toNat := by
    rw [KeyBuffer.isFull_iff_toNat_headroom, h.headroom, ← UInt64.toNat_inj, hremaining,
      UInt64.toNat_zero]
    have htarget := c₀.targetFor_le_headroom b₀
    omega
  split at hprogress
  · rename_i hend
    rw [if_pos (hends.1 hend)]
    exact ⟨_, hprogress⟩
  · rename_i hend
    rw [hends] at hend
    rw [if_neg hend]
    exact ⟨hprogress.1, h.delivered hs hprogress.2 (Nat.not_le.1 hend)⟩

theorem Standing.debited {b' : KeyBuffer} {amount : Bytes} {crossing : Option Crossing}
    (h : Standing c₀ link b₀ c b inflow outflow) (hb : b.debit amount = .ok (b', crossing)) :
    Standing c₀ link b₀ c b' inflow (outflow + amount.toNat) := by
  refine ⟨h.session, h.short, ?_, ?_⟩
  · obtain ⟨-, -, -, hmax, -⟩ := KeyBuffer.debit_eq_ok_iff.1 hb
    rw [hmax, h.maximum]
  · have hexact := KeyBuffer.toNat_debit hb
    have hlevel := h.level
    omega

theorem Standing.of_session_eq {c' : Charger} (h : Standing c₀ link b₀ c b inflow outflow)
    (hs : c'.session? link = c.session? link) : Standing c₀ link b₀ c' b inflow outflow := by
  obtain ⟨s, hopen, hsession⟩ := h.session
  exact ⟨⟨s, hs.trans hopen, hsession⟩, h.short, h.maximum, h.level⟩

/-- Where a session stands does not depend on the timer of its next round. -/
theorem Standing.retimed {c' : Charger} {followUp : Option TimerId}
    (h : Standing c₀ link b₀ c b inflow outflow)
    (hs : c'.session? link = (c.session? link).map ({ · with followUp })) :
    Standing c₀ link b₀ c' b inflow outflow := by
  obtain ⟨s, hopen, htarget, hdelivered⟩ := h.session
  rw [hopen, Option.map_some] at hs
  exact ⟨⟨_, hs, htarget, hdelivered⟩, h.short, h.maximum, h.level⟩

/-- Every course leads to a standing: before its target is delivered nothing is cut. -/
theorem Course.standing (h : Course c₀ link b₀ c b inflow outflow) :
    Standing c₀ link b₀ c b inflow outflow := by
  induction h with
  | opened h => exact .opened h
  | @delivered c _ b _ _ _ bytes _ _ _ h hd ih =>
    obtain ⟨c₁, d₁, h₁, hprogress⟩ := ih.delivery bytes
    cases h.symm.trans h₁
    split at hprogress
    · obtain ⟨s, hs⟩ := hprogress
      cases hd.symm.trans hs
    · exact hprogress.2
  | debited _ h ih => exact ih.debited h
  | roundSet _ h ih => exact ih.retimed (session?_setFollowUp h)
  | roundDue _ ih => exact ih.retimed (session?_takeFollowUp _ _)
  | elsewhere _ h ih => exact ih.of_session_eq h

end

/-- What a delivery reports about the threshold is what the credit reports. -/
theorem receive_crossing {c c' : Charger} {link : LinkKey} {b b' : KeyBuffer} {bytes : Bytes}
    {d : Delivery} (h : c.receive link b bytes = .ok (c', b', d)) :
    d.crossing = (b.credit bytes).2.crossing := by
  unfold receive at h
  split at h
  · cases h
  · simp only at h
    split at h <;> cases h <;> rfl

end Charger

/-- A credit does not lead below the threshold. -/
theorem KeyBuffer.isDrop_credit {b : KeyBuffer} {amount : Bytes} {x : Crossing}
    (h : (b.credit amount).2.crossing = some x) : x.isDrop = false := by
  change (b.credit amount).1.crossingFrom b.level = some x at h
  unfold crossingFrom at h
  split at h
  · cases h
  · rename_i hne
    cases h
    refine decide_eq_false ?_
    intro hlow
    refine hne ?_
    have hafter : (b.credit amount).1.isBelowThreshold = true := by
      by_contra hn
      simp only [level, hn] at hlow
      cases hlow
    have hlt := UInt64.lt_iff_toNat_lt.1 (of_decide_eq_true hafter)
    have hbefore : b.isBelowThreshold = true := by
      refine decide_eq_true (UInt64.lt_iff_toNat_lt.2 ?_)
      rw [toNat_credit_eq_add] at hlt
      exact Nat.lt_of_le_of_lt (Nat.le_add_right _ _) hlt
    rw [level, level, hafter, hbefore]

namespace Node

variable (n : Node)

theorem events_cancelTimer (timer : Option TimerId) : (n.cancelTimer timer).events = n.events := by
  cases timer <;> rfl

theorem events_levelCrossed {crossing : Crossing} (h : crossing.isDrop = false) (link : LinkKey)
    (now : Millis) :
    (n.levelCrossed link crossing now).events = n.events ++ [.levelChanged link crossing] := by
  unfold levelCrossed
  simp only [h]
  rfl

theorem events_awaitRound (link : LinkKey) (applied current : Bytes) (now : Millis) :
    ∃ progress, (n.awaitRound link applied current now).2.events = n.events ++ progress ∧
      ∀ id delivered fitted, Event.chargingCompleted link id delivered fitted ∉ progress := by
  unfold awaitRound
  cases n.charger.session? link with
  | none =>
    refine ⟨[], ?_, fun _ _ _ => List.not_mem_nil⟩
    simp only [List.append_nil]
    split
    · rfl
    · exact events_cancelTimer _ _
  | some s =>
    refine ⟨[.chargingProgress link s.id applied current], ?_, fun _ _ _ hmem => ?_⟩
    · simp only
      split
      · rfl
      · exact events_cancelTimer _ _
    · rw [List.mem_singleton] at hmem
      cases hmem

theorem events_closeSession (link : LinkKey) (s : Session) :
    (n.closeSession link s).events =
      n.events ++ [.chargingCompleted link s.id s.delivered s.applied] := by
  show (n.cancelTimer s.followUp).events ++ _ = _
  rw [events_cancelTimer]

/-- What is recorded of a delivery before its session goes on or ends: a crossing at most. -/
theorem events_credited {peer : NodeId} {bytes : Bytes} {l : Link} {c : Charger} {b : KeyBuffer}
    {d : Delivery} (hr : n.charger.receive (n.linkTo peer) l.buffer bytes = .ok (c, b, d))
    (now : Millis) :
    ∃ crossed, (n.credited (n.linkTo peer) l c b d now).events = n.events ++ crossed ∧
      ∀ id delivered fitted, Event.chargingCompleted (n.linkTo peer) id delivered fitted ∉ crossed := by
  have hcrossing := Charger.receive_crossing hr
  unfold credited
  cases hd : d.crossing with
  | none => exact ⟨[], (List.append_nil _).symm, fun _ _ _ => List.not_mem_nil⟩
  | some x =>
    rw [hd] at hcrossing
    refine ⟨[.levelChanged (n.linkTo peer) x], ?_, fun _ _ _ hmem => ?_⟩
    · exact events_levelCrossed _ (KeyBuffer.isDrop_credit hcrossing.symm) _ now
    · rw [List.mem_singleton] at hmem
      cases hmem

/-- A credit is never a drop, so a delivery opens no session. -/
theorem levelCrossed_of_rise {crossing : Crossing} (h : crossing.isDrop = false) (link : LinkKey)
    (now : Millis) :
    n.levelCrossed link crossing now =
      { n.record (.levelChanged link crossing) with
        routing := (n.routing.forgetLink link).2 } := by
  unfold levelCrossed
  simp only [h]
  rfl

theorem credited_of_receive {peer : NodeId} {bytes : Bytes} {l : Link} {c : Charger} {b : KeyBuffer}
    {d : Delivery} (hr : n.charger.receive (n.linkTo peer) l.buffer bytes = .ok (c, b, d))
    (now : Millis) :
    ∃ routing, n.credited (n.linkTo peer) l c b d now =
      { n with
        charger := c
        links := n.links.insert (n.linkTo peer)
          { l with buffer := b, stats := l.stats.charged d.applied }
        routing
        events := n.events ++ d.crossing.toList.map (.levelChanged (n.linkTo peer)) } := by
  have hcrossing := Charger.receive_crossing hr
  unfold credited
  cases hd : d.crossing with
  | none =>
    refine ⟨n.routing, ?_⟩
    simp only [Option.toList_none, List.map_nil, List.append_nil]
  | some x =>
    rw [hd] at hcrossing
    simp only
    rw [levelCrossed_of_rise _ (KeyBuffer.isDrop_credit hcrossing.symm)]
    exact ⟨_, rfl⟩

theorem awaitRound_of_session {link : LinkKey} {s : Session}
    (hs : n.charger.session? link = some s) (applied current : Bytes) (now : Millis) :
    n.awaitRound link applied current now = (.ok (),
      { ((n.record (.chargingProgress link s.id applied current)).schedule
          (now.addSat n.config.charging.roundInterval) (.chargingRound link)).2 with
        charger := { n.charger with
          sessions := n.charger.sessions.insert link
            { s with followUp := some ⟨n.agenda.nextId⟩ } } }.cancelTimer s.followUp) := by
  have hset : n.charger.setFollowUp link ⟨n.agenda.nextId⟩ = .ok ({ n.charger with
      sessions := n.charger.sessions.insert link { s with followUp := some ⟨n.agenda.nextId⟩ } },
      s.followUp) := by
    unfold Charger.setFollowUp
    rw [show n.charger.sessions.find? link = some s from hs]
  unfold awaitRound
  rw [hs]
  simp only
  split <;> rename_i h <;> cases hset.symm.trans h
  rfl

theorem buffer_chargeDelivered {peer : NodeId} {bytes : Bytes} {l : Link} {c : Charger}
    {b : KeyBuffer} {d : Delivery} (hl : n.links.find? (n.linkTo peer) = some l)
    (hr : n.charger.receive (n.linkTo peer) l.buffer bytes = .ok (c, b, d)) (now : Millis) :
    ∃ l', (n.chargeDelivered peer bytes now).2.links.find? (n.linkTo peer) = some l' ∧
      l'.buffer = b := by
  have hacc := congrArg (Stock.accounts · (n.linkTo peer)) (n.stock_chargeDelivered hl hr now)
  change ((n.chargeDelivered peer bytes now).2.links.find? (n.linkTo peer)).map Link.account =
    ((n.links.insert (n.linkTo peer) _).find? (n.linkTo peer)).map Link.account at hacc
  rw [Table.find?_insert, if_pos rfl, Option.map_some] at hacc
  obtain ⟨l', hl', haccount⟩ := Option.map_eq_some_iff.1 hacc
  exact ⟨l', hl', congrArg Link.buffer haccount⟩

/-- A delivery to a link that is up leaves the buffer as the charger does, and the end of a session
is recorded exactly where the charger ends it. -/
theorem chargeDelivered_records {peer : NodeId} {bytes : Bytes} {l : Link} {c : Charger}
    {b : KeyBuffer} {d : Delivery} (hl : n.links.find? (n.linkTo peer) = some l)
    (hr : n.charger.receive (n.linkTo peer) l.buffer bytes = .ok (c, b, d)) (now : Millis) :
    ∃ l' new, (n.chargeDelivered peer bytes now).2.links.find? (n.linkTo peer) = some l' ∧
      l'.buffer = b ∧ (n.chargeDelivered peer bytes now).2.events = n.events ++ new ∧
      ((∃ id delivered fitted,
          .chargingCompleted (n.linkTo peer) id delivered fitted ∈ new) ↔
        ∃ s, d.progress = .completed s) := by
  obtain ⟨l', hl', hbuffer⟩ := n.buffer_chargeDelivered hl hr now
  obtain ⟨crossed, hcredited, hcrossed⟩ := n.events_credited hr now
  have hafter := n.chargeDelivered_of_receive hl hr now
  cases hp : d.progress with
  | goesOn next =>
    rw [hp] at hafter
    obtain ⟨progress, hevents, hprogress⟩ :=
      (n.credited (n.linkTo peer) l c b d now).events_awaitRound (n.linkTo peer) d.applied b.current
        now
    refine ⟨l', crossed ++ progress, hl', hbuffer, ?_, ?_⟩
    · rw [hafter, hevents, hcredited, List.append_assoc]
    · constructor
      · rintro ⟨id, delivered, fitted, hmem⟩
        rcases List.mem_append.1 hmem with hmem | hmem
        · exact absurd hmem (hcrossed id delivered fitted)
        · exact absurd hmem (hprogress id delivered fitted)
      · rintro ⟨s, hs⟩
        cases hs
  | completed s =>
    rw [hp] at hafter
    refine ⟨l', crossed ++ [.chargingCompleted (n.linkTo peer) s.id s.delivered s.applied], hl',
      hbuffer, ?_, fun _ => ⟨s, rfl⟩, fun _ => ⟨s.id, s.delivered, s.applied, ?_⟩⟩
    · rw [hafter, events_closeSession, hcredited, List.append_assoc]
    · exact List.mem_append_right _ (List.mem_singleton_self _)

end Node

/-- A buffer below its threshold that has room for 600 bytes. -/
def KeyBuffer.low : KeyBuffer :=
  ⟨100, 500, 1000, 400, by decide, by decide, by decide, by decide⟩

/-- The end of a session without a cap, on a charger or on a node that uses it. The session ends
with the delivery that brings what fitted when it was opened. The buffer is full then exactly where
the deliveries have also made good what traffic has taken out meanwhile, and else it lacks the
difference. -/
theorem Charger.Course.completed_full_iff {c₀ c : Charger} {link : LinkKey} {b₀ b : KeyBuffer}
    {inflow outflow : Nat} (hc : Course c₀ link b₀ c b inflow outflow)
    (hall : c₀.totalAmount = 0) (bytes : Bytes) :
    ∃ c' b' d, c.receive link b bytes = .ok (c', b', d) ∧
      ((∃ s, d.progress = .completed s) ↔ b₀.headroom.toNat ≤ inflow + bytes.toNat) ∧
      b'.headroom.toNat = b₀.headroom.toNat + outflow - (inflow + bytes.toNat) ∧
      (b'.current = b'.maximum ↔ b₀.headroom.toNat + outflow ≤ inflow + bytes.toNat) ∧
      ∀ (n : Node) (peer : NodeId) (l : Link) (now : Millis), n.charger = c →
        n.linkTo peer = link → n.links.find? link = some l → l.buffer = b →
        ∃ l' new, (n.chargeDelivered peer bytes now).2.links.find? link = some l' ∧
          l'.buffer = b' ∧ (n.chargeDelivered peer bytes now).2.events = n.events ++ new ∧
          ((∃ id delivered fitted, .chargingCompleted link id delivered fitted ∈ new) ↔
            b₀.headroom.toNat ≤ inflow + bytes.toNat) := by
  have hstanding := hc.standing
  have hheadroom := hstanding.headroom bytes
  obtain ⟨c', d, hreceive, hprogress⟩ := hstanding.delivery bytes
  rw [targetFor_eq_headroom hall] at hprogress
  have hends : (∃ s, d.progress = .completed s) ↔
      b₀.headroom.toNat ≤ inflow + bytes.toNat := by
    split at hprogress
    · rename_i h
      exact ⟨fun _ => h, fun _ => hprogress⟩
    · rename_i h
      obtain ⟨⟨next, hnext⟩, -⟩ := hprogress
      constructor
      · rintro ⟨s, hs⟩
        rw [hnext] at hs
        cases hs
      · intro h'
        exact absurd h' h
  refine ⟨c', _, d, hreceive, hends, hheadroom, ?_, ?_⟩
  · have hfull := (b.credit bytes).1.isFull_iff_toNat_headroom
    rw [KeyBuffer.isFull, decide_eq_true_eq, hheadroom] at hfull
    rw [hfull]
    omega
  · rintro n peer l now rfl rfl hl rfl
    rw [← hends]
    exact n.chargeDelivered_records hl hreceive now

/-- Traffic takes 100 bytes out while a session is open. The session ends with the 600 bytes that
fitted before, and the buffer is not full. -/
theorem Charger.Course.completed_short :
    ∃ c b c' b' d s, Course (.ofSettings ⟨600, 10, 0⟩) (.join ⟨1⟩ ⟨2⟩) .low c b 0 100 ∧
      c.receive (.join ⟨1⟩ ⟨2⟩) b 600 = .ok (c', b', d) ∧ d.progress = .completed s ∧
      b'.current ≠ b'.maximum ∧ b'.headroom.toNat = 100 := by
  have hopened : Course (.ofSettings ⟨600, 10, 0⟩) (.join ⟨1⟩ ⟨2⟩) .low _ .low 0 0 :=
    .opened (rfl : Charger.openIfLow _ _ _ 0 = _)
  have hcourse := hopened.debited (rfl : KeyBuffer.low.debit 100 = _)
  obtain ⟨c', b', d, hreceive, hends, hheadroom, hfull, -⟩ :=
    hcourse.completed_full_iff rfl 600
  obtain ⟨s, hs⟩ := hends.2 (by decide)
  exact ⟨_, _, c', b', d, s, hcourse, hreceive, hs, fun h => absurd (hfull.1 h) (by decide),
    hheadroom.trans (by decide)⟩

end KeyReserve
