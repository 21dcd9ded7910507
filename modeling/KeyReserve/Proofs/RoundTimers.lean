import KeyReserve.Proofs.ChargingCourse
import KeyReserve.Proofs.Clock

/-!
# The timers of rounds and ticks

What charging and ticks do to the clock of a node. A session that goes on has the timer of its next
round set anew, and takes it along when it ends; a tick that fires sets the next one. Links that come
up may be charged at once, and set no timer then.

## Main results

* `Node.disarmed_abandonCharging`, `Node.steps_chargeIfLow`: a session opens without a timer and
  takes its timer along when it is given up;
* `Node.steps_chargeDelivered`: the timer of the next round takes the place of the one that is set;
* `Node.steps_tick`, `Node.steps_scheduleTick`, `Node.steps_establish`;
* `Node.steps_firedRound`, `Node.steps_firedTick`: a timer that fires is pending no longer.
-/

namespace KeyReserve

/-! ## Sessions and their timers -/

namespace Charger

variable (c : Charger) (link key : LinkKey)

theorem followUp?_insert (s : Session) :
    ({ c with sessions := c.sessions.insert link s } : Charger).followUp? key =
      if key = link then s.followUp else c.followUp? key := by
  unfold followUp? session?
  rw [Table.find?_insert]
  split <;> rfl

theorem followUp?_erase :
    ({ c with sessions := c.sessions.erase link } : Charger).followUp? key =
      if key = link then none else c.followUp? key := by
  unfold followUp? session?
  rw [Table.find?_erase]
  split <;> rfl

theorem followUp?_of_session {s : Session} (h : c.session? link = some s) :
    c.followUp? link = s.followUp := by
  rw [followUp?, h]
  rfl

/-- A session opens without a timer. -/
theorem followUp?_openIfLow (buffer : KeyBuffer) (now : Millis) :
    (c.openIfLow link buffer now).1.followUp? key = c.followUp? key := by
  unfold openIfLow
  split
  · rfl
  · rename_i hidle
    rw [Bool.or_eq_true, not_or, Table.contains_eq_isSome, Option.not_isSome_iff_eq_none] at hidle
    refine (c.followUp?_insert link key _).trans ?_
    split
    · rename_i hk
      rw [hk, followUp?, session?, hidle.2]
      rfl
    · rfl

theorem followUp?_takeFollowUp :
    (c.takeFollowUp link).1.followUp? key = if key = link then none else c.followUp? key := by
  unfold takeFollowUp
  cases h : c.sessions.find? link with
  | none =>
    by_cases hk : key = link
    · rw [if_pos hk, hk]
      show (c.sessions.find? link).bind _ = none
      rw [h]
      rfl
    · rw [if_neg hk]
  | some s => exact c.followUp?_insert link key _

/-- A delivery leaves the timer of a session that goes on as it is; one that ends is gone from the
charger with its timer. -/
theorem followUp?_receive {c c' : Charger} {link : LinkKey} {b b' : KeyBuffer} {bytes : Bytes}
    {d : Delivery} (h : c.receive link b bytes = .ok (c', b', d)) :
    match d.progress with
    | .goesOn _ => (∃ s, c'.session? link = some s) ∧ ∀ key, c'.followUp? key = c.followUp? key
    | .completed s => s.followUp = c.followUp? link ∧
        ∀ key, c'.followUp? key = if key = link then none else c.followUp? key := by
  unfold receive at h
  cases hs : c.sessions.find? link with
  | none =>
    rw [hs] at h
    cases h
  | some s =>
    have hf : c.followUp? link = s.followUp := c.followUp?_of_session link hs
    rw [hs] at h
    simp only at h
    split at h <;> cases h
    · exact ⟨hf.symm, fun key => c.followUp?_erase link key⟩
    · refine ⟨⟨_, session?_insert _ _ _⟩, fun key => ?_⟩
      rw [followUp?_insert]
      split
      · rename_i hk
        rw [hk, hf]
        rfl
      · rfl

end Charger

namespace Node

open Clock

variable (n : Node) {Q : Timer → Prop}

/-! ## Rounds -/

theorem clock_cancelTimer (id : Option TimerId) : (n.cancelTimer id).clock = n.clock.cancel id := by
  cases id <;> rfl

/-- A change of the timer of one session. -/
theorem noted_charger {c : Charger} {link : LinkKey} {id : Option TimerId}
    (h : ∀ key, c.followUp? key = if key = link then id else n.charger.followUp? key) (t : Timer) :
    { n with charger := c }.noted t = if t = .chargingRound link then id else n.noted t := by
  cases t with
  | chargingRound key =>
    refine (h key).trans ?_
    simp only [Timer.chargingRound.injEq]
    rfl
  | deadline link packet => rfl
  | tick => rfl

/-- A change of the charger that keeps the timers of its sessions. -/
theorem clock_charger {c : Charger} (h : ∀ key, c.followUp? key = n.charger.followUp? key) :
    { n with charger := c }.clock = n.clock := by
  have hnoted : { n with charger := c }.noted = n.noted := by
    funext t
    cases t with
    | chargingRound link => exact h link
    | deadline link packet => rfl
    | tick => rfl
  simp only [clock, hnoted]

/-- The timer of a session goes with it. -/
theorem disarmed_charger {c : Charger} {link : LinkKey}
    (h : ∀ key, c.followUp? key = if key = link then none else n.charger.followUp? key) :
    Disarmed (· = .chargingRound link) n.clock
      ({ n with charger := c }.clock.cancel (n.charger.followUp? link)) := by
  refine .of_cancel rfl rfl ?_ ?_ ?_
  · intro i
    constructor
    · exact fun h => ⟨_, rfl, h⟩
    · rintro ⟨t, rfl, h⟩
      exact h
  · rintro t rfl
    exact (n.noted_charger h _).trans (if_pos rfl)
  · intro t ht
    exact (n.noted_charger h t).trans (if_neg ht)

theorem disarmed_abandonCharging (link : LinkKey) (reason : String) :
    Disarmed (· = .chargingRound link) n.clock (n.abandonCharging link reason).2.clock := by
  have herase := n.disarmed_charger fun key => n.charger.followUp?_erase link key
  unfold abandonCharging
  cases hs : n.charger.sessions.find? link with
  | none =>
    have hnone : n.charger.followUp? link = none := by
      rw [Charger.followUp?, Charger.session?, hs]
      rfl
    simp only [Charger.abandon, hs, Option.map_none]
    refine ⟨rfl, rfl, fun e => ?_, ?_, fun _ _ => rfl⟩
    · refine ⟨fun he => ⟨he, ?_⟩, And.left⟩
      rintro t rfl
      show n.charger.followUp? link ≠ _
      rw [hnone]
      exact (Option.some_ne_none e.id).symm
    · rintro t rfl
      exact hnone
  | some s =>
    rw [n.charger.followUp?_of_session link hs] at herase
    simp only [Charger.abandon, hs, Option.map_some]
    show Disarmed _ _ (cancelTimer _ _).clock
    rw [clock_cancelTimer]
    exact herase

theorem steps_abandonCharging (link : LinkKey) (reason : String) :
    Steps Timer.AsksRound n.clock (n.abandonCharging link reason).2.clock := by
  refine .disarm (.refl _) ?_ (n.disarmed_abandonCharging link reason)
  rintro t rfl
  trivial

theorem steps_requestCharge (link : LinkKey) (bytes : Bytes) (now : Millis) :
    Steps Timer.AsksRound n.clock (n.requestCharge link bytes now).clock := by
  unfold requestCharge
  split <;> rename_i h
  · exact .of_eq (congrArg (·.2.clock) h).symm
  · have hsubmit : (n.submit (.charge link bytes now)).2.clock = n.clock := rfl
    rw [h] at hsubmit
    rw [← hsubmit]
    exact steps_abandonCharging _ link _

theorem steps_chargeIfLow (link : LinkKey) (now : Millis) :
    Steps Timer.AsksRound n.clock (n.chargeIfLow link now).clock := by
  unfold chargeIfLow
  split
  · exact .refl _
  · rename_i buffer _
    have hopen := n.clock_charger (c := (n.charger.openIfLow link buffer now).1)
      fun key => n.charger.followUp?_openIfLow link key buffer now
    split
    · exact .refl _
    · rename_i h
      rw [h] at hopen
      refine Steps.trans ?_ (steps_requestCharge _ link _ now)
      exact .of_eq hopen

theorem steps_levelCrossed (link : LinkKey) (crossing : Crossing) (now : Millis) :
    Steps Timer.AsksRound n.clock (n.levelCrossed link crossing now).clock := by
  unfold levelCrossed
  simp only
  split
  · refine Steps.trans ?_ (steps_chargeIfLow _ link now)
    exact .refl _
  · exact .refl _

/-- The timer of the next round takes the place of the one that is set. -/
theorem armed_round (hk : n.clock.Kept Q) {link : LinkKey} {s : Session}
    (hs : n.charger.session? link = some s) (due : Millis) {c : Charger}
    (hc : ∀ key, c.followUp? key =
      if key = link then some ⟨n.agenda.nextId⟩ else n.charger.followUp? key) :
    Armed (.chargingRound link) due n.clock
      ({ (n.schedule due (.chargingRound link)).2 with charger := c }.clock.cancel s.followUp) := by
  have hold : n.clock.noted (.chargingRound link) = s.followUp :=
    n.charger.followUp?_of_session link hs
  have hnoted := noted_charger (n.schedule due (.chargingRound link)).2 hc
  refine ⟨rfl, nextId_cancel _ _, ?_, (hnoted _).trans (if_pos rfl),
    fun t ht => (hnoted t).trans (if_neg ht)⟩
  intro e
  rw [mem_cancel, hold]
  constructor
  · rintro ⟨he, hne⟩
    exact (Agenda.mem_schedule.1 he).imp_right fun he => ⟨he, hne⟩
  · rintro (rfl | ⟨he, hne⟩)
    · refine ⟨Agenda.mem_schedule.2 (.inl rfl), fun hnew => ?_⟩
      obtain ⟨d, hd⟩ := hk.pending (.chargingRound link) _ (hold.trans hnew)
      exact Nat.lt_irrefl n.agenda.nextId (n.agenda.numbered _ hd)
    · exact ⟨Agenda.mem_schedule.2 (.inr he), hne⟩

theorem steps_awaitRound (hk : n.clock.Kept Q) {link : LinkKey} {s : Session}
    (hs : n.charger.session? link = some s) (applied current : Bytes) (now : Millis) :
    Steps Timer.AsksRound n.clock (n.awaitRound link applied current now).2.clock := by
  rw [n.awaitRound_of_session hs]
  rw [clock_cancelTimer]
  exact .arm (.refl _) (t := .chargingRound link) trivial
    (armed_round (n.record (.chargingProgress link s.id applied current)) hk hs _
      fun key => n.charger.followUp?_insert link key _)

theorem clock_closeSession (link : LinkKey) (s : Session) :
    (n.closeSession link s).clock = n.clock.cancel s.followUp :=
  n.clock_cancelTimer s.followUp

theorem steps_chargeDelivered (hk : n.clock.Kept Q) (peer : NodeId) (bytes : Bytes) (now : Millis) :
    Steps Timer.AsksRound n.clock (n.chargeDelivered peer bytes now).2.clock := by
  rcases n.chargeDelivered_cases peer bytes now with ⟨hsame, -⟩ | ⟨l, c, b, d, hl, hr⟩
  · rw [hsame]
    exact .refl _
  obtain ⟨routing, hcredited⟩ := n.credited_of_receive hr now
  have hfollow := Charger.followUp?_receive hr
  rw [n.chargeDelivered_of_receive hl hr, hcredited]
  cases hd : d.progress with
  | goesOn next =>
    rw [hd] at hfollow
    obtain ⟨⟨s, hs⟩, hsame⟩ := hfollow
    have hclock := n.clock_charger hsame
    refine (Steps.of_eq hclock).trans ?_
    exact steps_awaitRound { n with charger := c, links := _, routing, events := _ }
      (hclock.symm ▸ hk) hs d.applied b.current now
  | completed s =>
    rw [hd] at hfollow
    obtain ⟨hs, hgone⟩ := hfollow
    refine .disarm (.refl _) (S := (· = .chargingRound (n.linkTo peer))) ?_ ?_
    · rintro t rfl
      trivial
    · have hdisarm := n.disarmed_charger hgone
      rw [← hs] at hdisarm
      simp only
      rw [clock_closeSession]
      exact hdisarm

/-! ## Ticks -/

theorem steps_tick (now : Millis) : Steps Timer.AsksRound n.clock (n.tick now).clock := by
  show Steps _ n.clock (n.links.keys.foldl (fun n key => n.chargeIfLow key now) n).clock
  exact List.foldlRecOn (motive := fun m : Node => Steps Timer.AsksRound n.clock m.clock)
    n.links.keys _ (.refl _) fun m hm k _ => hm.trans (m.steps_chargeIfLow k now)

theorem steps_scheduleTick (now : Millis) :
    Steps (· = .tick) n.clock (n.scheduleTick now).clock := by
  unfold scheduleTick
  simp only
  split
  · rename_i h
    rw [Bool.and_eq_true, Option.isNone_iff_eq_none] at h
    refine @Steps.arm _ _ _ _ .tick (now.addSat n.config.node.tickInterval) (.refl _) rfl
      ⟨rfl, rfl, ?_, rfl, ?_⟩
    · intro e
      refine Agenda.mem_schedule.trans (or_congr_right ⟨fun he => ⟨he, ?_⟩, And.left⟩)
      rw [show n.clock.noted .tick = none from h.2]
      nofun
    · intro t ht
      cases t with
      | chargingRound link => rfl
      | deadline link packet => rfl
      | tick => exact absurd rfl ht
  · exact .refl _

/-- The tick is taken back with its note. -/
theorem disarmed_tick :
    Disarmed (· = .tick) n.clock { n.cancelTimer n.tickTimer with tickTimer := none }.clock := by
  have hclock : { n.cancelTimer n.tickTimer with tickTimer := none }.clock =
      { n with tickTimer := none }.clock.cancel n.tickTimer := by
    cases n.tickTimer <;> rfl
  rw [hclock]
  refine .of_cancel rfl rfl ?_ ?_ ?_
  · intro i
    constructor
    · exact fun h => ⟨_, rfl, h⟩
    · rintro ⟨t, rfl, h⟩
      exact h
  · rintro t rfl
    rfl
  · intro t ht
    cases t with
    | chargingRound | deadline => rfl
    | tick => exact absurd rfl ht

/-! ## Links that come up -/

theorem steps_bringUp (peer : NodeId) (bounds : Bounds) (now : Millis) :
    Steps Timer.AsksRound n.clock (n.bringUp peer bounds now).2.clock := by
  unfold bringUp
  simp only
  split
  · exact .refl _
  · refine Steps.trans ?_ (steps_chargeIfLow _ _ now)
    exact .refl _

theorem steps_bringUpAll (now : Millis) (ls : List LinkSettings) :
    Steps Timer.AsksRound n.clock (n.bringUpAll now ls).2.clock := by
  induction ls generalizing n with
  | nil => exact .refl _
  | cons l ls ih =>
    exact (n.steps_bringUp l.peer (l.boundsOr n.config.buffer) now).trans (ih _)

theorem steps_establish (peer : NodeId) (bounds : Bounds) (now : Millis) :
    Steps Timer.AsksRound n.clock (n.establish peer bounds now).2.clock := by
  have h := n.steps_bringUp peer bounds now
  unfold establish
  split
  · exact .refl _
  · split <;> rename_i hm <;> rw [hm] at h <;> exact h

/-! ## Timers that fire -/

variable {e : Agenda.Entry Timer} {a : Agenda Timer}

theorem steps_firedRound (hk : n.clock.Kept Q) (hpop : n.agenda.pop = some (e, a))
    {link : LinkKey} (he : e.event = .chargingRound link) (hown : n.noted e.event = some e.id)
    (now : Millis) :
    Steps Timer.AsksRound n.clock ({ n with agenda := a }.chargingRound link now).clock := by
  have hnoted := noted_charger { n with agenda := a }
    fun key => n.charger.followUp?_takeFollowUp link key
  have hfired := hk.fired hpop hown (d := { n with
    agenda := a, charger := (n.charger.takeFollowUp link).1 }.clock) rfl rfl
    (he ▸ (hnoted _).trans (if_pos rfl)) fun t ht => (hnoted t).trans (if_neg (he ▸ ht))
  have hstep : Steps Timer.AsksRound n.clock { n with
      agenda := a, charger := (n.charger.takeFollowUp link).1 }.clock := by
    refine .disarm (.refl _) ?_ hfired
    rintro t rfl
    exact he ▸ trivial
  unfold chargingRound
  simp only
  split
  · exact hstep
  · exact hstep.trans (steps_requestCharge _ link _ now)

theorem steps_firedTick (hk : n.clock.Kept Q) (hpop : n.agenda.pop = some (e, a))
    (he : e.event = .tick) (hown : n.noted e.event = some e.id) (now : Millis) :
    Steps (fun t => ¬ t.EndsWait) n.clock ({ n with agenda := a }.onTimer .tick now).clock := by
  have hround : ∀ t : Timer, t.AsksRound → ¬ t.EndsWait := by
    intro t ht
    cases t with
    | chargingRound link => exact not_false
    | deadline link packet => cases ht
    | tick => cases ht
  have hfired := hk.fired hpop hown (d := { n with agenda := a, tickTimer := none }.clock)
    rfl rfl (he ▸ rfl) fun t ht => by
      cases t with
      | chargingRound link => rfl
      | deadline link packet => rfl
      | tick => exact absurd he.symm ht
  have hstep : Steps (fun t => ¬ t.EndsWait) n.clock { n with
      agenda := a, tickTimer := none }.clock := by
    refine .disarm (.refl _) ?_ hfired
    rintro t rfl
    exact he ▸ not_false
  unfold onTimer
  simp only
  split
  · refine hstep.trans (((steps_tick _ now).mono hround).trans ((steps_scheduleTick _ now).mono ?_))
    rintro t rfl
    exact not_false
  · exact hstep

end Node

end KeyReserve
