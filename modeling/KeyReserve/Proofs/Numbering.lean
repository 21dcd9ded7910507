import KeyReserve.Proofs.NodeWatch

/-!
# The numbers of timers

The agenda gives each timer a number that no other timer has had. A node takes its timers back by
the numbers that it has noted, so it matters that no number is noted of two timers, and that none is
noted that will still be given out. This holds whatever is called and whatever timers fire, due or
not, as long as whoever owns the agenda gives out no number twice.

## Main definitions

* `Clock.Numbered`: what holds of the numbers that are noted;
* `Clock.Advances`: a change of a clock that keeps its phase and the order of its numbers;
* `Node.Accessible`: the nodes that calls lead to without a number being given out again.

## Main results

* `Node.advances_apply`: what the calls do that neither start nor stop the node;
* `Node.Accessible.numbered`: no number is noted of two timers.
-/

namespace KeyReserve

namespace Clock

/-- Each number that is noted has been given out, and is noted of one timer only. -/
structure Numbered (c : Clock) : Prop where
  given : ∀ t id, c.noted t = some id → id.val < c.agenda.nextId
  single : ∀ t u id, c.noted t = some id → c.noted u = some id → t = u

/-- The phase is as it was, and the numbers that are noted stay in order. -/
structure Advances (c d : Clock) : Prop where
  phase : d.phase = c.phase
  numbered : c.Numbered → d.Numbered

namespace Advances

variable {c d e : Clock}

theorem of_eq (h : d = c) : Advances c d := h ▸ ⟨rfl, fun hc => hc⟩

theorem trans (h : Advances c d) (h' : Advances d e) : Advances c e :=
  ⟨h'.phase.trans h.phase, fun hc => h'.numbered (h.numbered hc)⟩

/-- Notes are dropped, and none is new. -/
theorem of_noted (hphase : d.phase = c.phase) (hcount : c.agenda.nextId ≤ d.agenda.nextId)
    (hnoted : ∀ t id, d.noted t = some id → c.noted t = some id) : Advances c d where
  phase := hphase
  numbered h :=
    { given := fun t id ht => Nat.lt_of_lt_of_le (h.given t id (hnoted t id ht)) hcount
      single := fun t u id ht hu => h.single t u id (hnoted t id ht) (hnoted u id hu) }

/-- The one new note has the next number. -/
theorem of_fresh {t : Timer} (hphase : d.phase = c.phase)
    (hcount : d.agenda.nextId = c.agenda.nextId + 1) (hnew : d.noted t = some ⟨c.agenda.nextId⟩)
    (hothers : ∀ x, x ≠ t → ∀ id, d.noted x = some id → c.noted x = some id) :
    Advances c d := by
  refine ⟨hphase, fun h => ?_⟩
  have hold : ∀ x, x ≠ t → ∀ id, d.noted x = some id → id.val < c.agenda.nextId :=
    fun x hx id hid => h.given x id (hothers x hx id hid)
  have hfresh : ∀ x, d.noted x = some ⟨c.agenda.nextId⟩ → x = t := fun x hx => by
    by_contra hne
    exact Nat.lt_irrefl _ (hold x hne _ hx)
  refine ⟨fun x id hx => ?_, fun x y id hx hy => ?_⟩
  · rw [hcount]
    by_cases hxt : x = t
    · rw [hxt, hnew] at hx
      cases hx
      exact Nat.lt_succ_self _
    · exact Nat.lt_succ_of_lt (hold x hxt id hx)
  · by_cases hxt : x = t
    · rw [hxt, hnew] at hx
      cases hx
      rw [hxt, hfresh y hy]
    · by_cases hyt : y = t
      · rw [hyt, hnew] at hy
        cases hy
        exact absurd (hfresh x hx) hxt
      · exact h.single x y id (hothers x hxt id hx) (hothers y hyt id hy)

end Advances

variable {S P : Timer → Prop} {c d : Clock}

theorem Disarmed.advances (h : Disarmed S c d) : Advances c d := by
  refine .of_noted h.phase (Nat.le_of_eq h.count.symm) fun t id ht => ?_
  by_cases hS : S t
  · rw [h.noted t hS] at ht
    cases ht
  · rw [← h.others t hS, ht]

theorem Armed.advances {t : Timer} {due : Millis} (h : Armed t due c d) : Advances c d :=
  .of_fresh h.phase h.count h.noted fun x hx id hid => by rw [← h.others x hx, hid]

theorem Steps.advances (h : Steps P c d) : Advances c d := by
  induction h with
  | refl => exact .of_eq rfl
  | arm _ _ harm ih => exact ih.trans harm.advances
  | disarm _ _ hdisarm ih => exact ih.trans hdisarm.advances

theorem advances_forget (c : Clock) (packet : PacketId) : Advances c (c.forget packet) :=
  .of_noted rfl (Nat.le_refl _) fun _ _ => noted_of_noted_forget

theorem Waits.advances {p : SecuredPacket} (h : Waits p c d) : Advances c d := by
  cases h with
  | never => exact .of_eq rfl
  | «until» _ harm => exact (c.advances_forget p.id).trans harm.advances

/-- Whether the node runs is no matter of numbers. -/
theorem Numbered.withPhase (h : c.Numbered) (phase : Phase) : Numbered { c with phase } :=
  ⟨h.given, h.single⟩

end Clock

/-- An agenda that is put in place of another has given out all the numbers that that has. -/
def Call.KeepsCount (c : Call) (n : Node) : Prop :=
  match c with
  | .rearrange agenda => n.agenda.nextId ≤ agenda.nextId
  | _ => True

namespace Node

open Clock

variable (n : Node)

/-! ## Operations -/

theorem Sends.advances {n m : Node} (h : n.Sends m) : Advances n.clock m.clock := by
  obtain ⟨c, hs, ⟨hc, -⟩ | ⟨p, -, hw, -⟩⟩ := h
  · exact hc ▸ hs.advances
  · exact hs.advances.trans hw.advances

/-- The timer of the next round is set and noted, whatever else is pending. -/
theorem advances_round (due : Millis) {link : LinkKey} {c : Charger}
    (hc : ∀ key, c.followUp? key =
      if key = link then some ⟨n.agenda.nextId⟩ else n.charger.followUp? key)
    (replaced : Option TimerId) :
    Advances n.clock
      ({ (n.schedule due (.chargingRound link)).2 with charger := c }.clock.cancel replaced) := by
  have hnoted := noted_charger (n.schedule due (.chargingRound link)).2 hc
  refine .of_fresh rfl (nextId_cancel _ _) ((hnoted _).trans (if_pos rfl)) fun x hx id hid => ?_
  exact ((hnoted x).trans (if_neg hx)).symm.trans hid

theorem advances_awaitRound {link : LinkKey} {s : Session}
    (hs : n.charger.session? link = some s) (applied current : Bytes) (now : Millis) :
    Advances n.clock (n.awaitRound link applied current now).2.clock := by
  rw [n.awaitRound_of_session hs]
  rw [clock_cancelTimer]
  exact advances_round (n.record (.chargingProgress link s.id applied current)) _
    (fun key => n.charger.followUp?_insert link key _) s.followUp

theorem advances_chargeDelivered (peer : NodeId) (bytes : Bytes) (now : Millis) :
    Advances n.clock (n.chargeDelivered peer bytes now).2.clock := by
  rcases n.chargeDelivered_cases peer bytes now with ⟨hsame, -⟩ | ⟨l, c, b, d, hl, hr⟩
  · exact .of_eq (by rw [hsame])
  obtain ⟨routing, hcredited⟩ := n.credited_of_receive hr now
  have hfollow := Charger.followUp?_receive hr
  rw [n.chargeDelivered_of_receive hl hr, hcredited]
  cases hd : d.progress with
  | goesOn next =>
    rw [hd] at hfollow
    obtain ⟨⟨s, hs⟩, hsame⟩ := hfollow
    refine (Advances.of_eq (n.clock_charger hsame)).trans ?_
    exact advances_awaitRound { n with charger := c, links := _, routing, events := _ } hs
      d.applied b.current now
  | completed s =>
    rw [hd] at hfollow
    have hdisarm := n.disarmed_charger hfollow.2
    rw [← hfollow.1] at hdisarm
    simp only
    rw [clock_closeSession]
    exact hdisarm.advances

theorem advances_chargingRound (link : LinkKey) (now : Millis) :
    Advances n.clock (n.chargingRound link now).clock := by
  have htaken : Advances n.clock
      { n with charger := (n.charger.takeFollowUp link).1 }.clock := by
    have hnoted := n.noted_charger fun key => n.charger.followUp?_takeFollowUp link key
    refine .of_noted rfl (Nat.le_refl _) fun t id ht => ?_
    replace ht := (hnoted t).symm.trans ht
    split at ht
    · cases ht
    · exact ht
  unfold chargingRound
  simp only
  split
  · exact htaken
  · exact htaken.trans (steps_requestCharge _ link _ now).advances

theorem advances_expireWaiting (link : LinkKey) (packet : PacketId) (now : Millis) :
    Advances n.clock (n.expireWaiting link packet now).clock := by
  rcases n.expireWaiting_cases link packet now with hsame | hforgot | ⟨p, due, -, harm⟩
  · exact .of_eq hsame
  · exact hforgot ▸ n.clock.advances_forget packet
  · refine .trans (n.clock.advances_forget packet) ?_
    exact ((n.clock.forget packet).advances_forget p.id).trans harm.advances

theorem advances_linkReady (nextHop : NodeId) (now : Millis) :
    Advances n.clock (n.linkReady nextHop now).2.clock := by
  obtain ⟨gone, -, hd⟩ := (n.setQueue nextHop []).disarmed_sendWaiting now (n.queue nextHop)
  exact hd.advances

/-- A timer may fire at any time, and more than once. -/
theorem advances_onTimer (timer : Timer) (now : Millis) :
    Advances n.clock (n.onTimer timer now).clock := by
  cases timer with
  | chargingRound link => exact n.advances_chargingRound link now
  | deadline link packet => exact n.advances_expireWaiting link packet now
  | tick =>
    have hfired : Advances n.clock { n with tickTimer := none }.clock := by
      refine .of_noted rfl (Nat.le_refl _) fun t id ht => ?_
      cases t with
      | chargingRound | deadline => exact ht
      | tick => cases ht
    unfold onTimer
    simp only
    split
    · exact (hfired.trans (steps_tick _ now).advances).trans (steps_scheduleTick _ now).advances
    · exact hfired

theorem advances_teardownAll (keys : List LinkKey) :
    Advances n.clock (n.teardownAll keys).clock := by
  refine List.foldlRecOn (motive := fun m : Node => Advances n.clock m.clock) keys _ (.of_eq rfl)
    fun m hm k _ => ?_
  cases k.other m.id with
  | none => exact hm
  | some peer => exact hm.trans (m.disarmed_teardown peer).advances

/-- The calls that neither start nor stop the node, nor change its agenda from outside. -/
theorem advances_apply {c : Call} (hstart : ∀ now, c ≠ .start now) (hstop : c ≠ .shutdown)
    (hagenda : ∀ a, c ≠ .rearrange a) : Advances n.clock (n.apply c).clock := by
  cases c with
  | start now => exact absurd rfl (hstart now)
  | shutdown => exact absurd rfl hstop
  | rearrange a => exact absurd rfl (hagenda a)
  | establish peer bounds now => exact (n.steps_establish peer bounds now).advances
  | teardown peer => exact (n.disarmed_teardown peer).advances
  | tick now => exact (n.steps_tick now).advances
  | timer timer now => exact n.advances_onTimer timer now
  | sendSecured packet maxDelay now => exact (n.sends_sendSecured packet maxDelay now).advances
  | sendBestEffort packet now => exact (n.sends_sendBestEffort packet now).advances
  | linkReady nextHop now => exact n.advances_linkReady nextHop now
  | chargeDelivered peer bytes now => exact n.advances_chargeDelivered peer bytes now
  | chargeFailed peer reason => exact (n.steps_abandonCharging _ reason).advances
  | advertisement sender destination hops seq now =>
    show Advances _ (n.onAdvertisement sender destination hops seq now).2.clock
    unfold onAdvertisement
    split <;> exact .of_eq rfl
  | routeReply nextHop destination hops seq now =>
    show Advances _ (n.onRouteReply nextHop destination hops seq now).2.clock
    unfold onRouteReply
    split <;> exact .of_eq rfl
  | drainEvents => exact .of_eq rfl

theorem numbered_start {n : Node} (h : n.clock.Numbered) (now : Millis) :
    (n.start now).2.clock.Numbered := by
  unfold start
  split
  · exact h
  · have hup := (n.steps_bringUpAll now n.config.links).advances.numbered h
    exact (steps_scheduleTick _ now).advances.numbered (hup.withPhase .running)

theorem numbered_shutdown {n : Node} (h : n.clock.Numbered) : n.shutdown.clock.Numbered := by
  unfold shutdown
  split
  · exact h
  · have hdown := (n.advances_teardownAll n.links.keys).numbered h
    exact ((disarmed_tick _).advances.numbered hdown).withPhase .stopped

/-! ## Accessible nodes -/

/-- The nodes that calls lead to from one that a configuration makes, where no agenda that is put in
place of another gives out a number again. -/
inductive Accessible : Node → Prop where
  | created {config : Config} {t : Transport} {n : Node} (h : create config t = .ok n) :
      Accessible n
  | called {n : Node} (h : Accessible n) (c : Call) (hc : c.KeepsCount n) : Accessible (n.apply c)

theorem Accessible.reachable {n : Node} (h : n.Accessible) : n.Reachable := by
  induction h with
  | created h => exact .created h
  | called _ c _ ih => exact ih.called c

theorem numbered_create {config : Config} {t : Transport} {n : Node}
    (h : create config t = .ok n) : n.clock.Numbered := by
  have hnone : ∀ timer, n.noted timer = none := by
    unfold create at h
    split at h <;> cases h
    intro timer
    cases timer <;> rfl
  refine ⟨fun t id ht => ?_, fun t u id ht _ => ?_⟩ <;> cases (hnone t).symm.trans ht

theorem numbered_apply {n : Node} (h : n.clock.Numbered) {c : Call} (hc : c.KeepsCount n) :
    (n.apply c).clock.Numbered := by
  cases c with
  | start now => exact numbered_start h now
  | shutdown => exact numbered_shutdown h
  | rearrange a => exact ⟨fun t id ht => Nat.lt_of_lt_of_le (h.given t id ht) hc, h.single⟩
  | _ => refine (n.advances_apply ?_ ?_ ?_).numbered h <;> nofun

theorem Accessible.numbered {n : Node} (h : n.Accessible) : n.clock.Numbered := by
  induction h with
  | created h => exact numbered_create h
  | called _ _ hc ih => exact numbered_apply ih hc

end Node

end KeyReserve
