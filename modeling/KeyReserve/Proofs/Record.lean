import KeyReserve.Proofs.ChargingCourse
import KeyReserve.Proofs.Lifecycle
import KeyReserve.Proofs.Reserve

/-!
# The record of a node

What a node records of the levels of its links and of their sessions, and what it does to them, go
together: each operation is a change of the reserve of the node, and adds to the record just what
is recorded of that change.

## Main definitions

* `Node.reserve`: the levels, the counts of charging and the sessions of a node;
* `Node.Tells`: steps in a row that add to the record what is recorded of them.

## Main results

* `Node.told_chargeIfLow`, `Node.tells_abandonCharging`: sessions that are opened and given up;
* `Node.tells_onTimer`, `Node.tells_linkReady`: packets that wait change nothing of the reserve;
* `Node.tells_start`, `Node.closed_teardown`, `Node.closed_shutdown`: links that come up and go down.
-/

namespace KeyReserve

/-- A session without the timer of its next round. -/
def Session.untimed (s : Session) : Session := { s with followUp := none }

/-- The level of a link and its counts of charging. -/
def Link.meter (l : Link) : Meter :=
  ⟨l.buffer, l.stats.keyBytesCharged, l.stats.sessionsCompleted, l.stats.sessionsAbandoned⟩

namespace Node

def reserve (n : Node) : Reserve :=
  { meters := fun key => (n.links.find? key).map Link.meter
    sessions := fun key => (n.charger.session? key).map Session.untimed
    nextSession := n.charger.nextSession }

/-- From a node to another there are steps, and what is recorded of them is added to the record. -/
def Tells (offered : LinkKey → Bounds → Prop) (n m : Node) : Prop :=
  ∃ es, m.events = n.events ++ es ∧ Reserve.Steps offered n.reserve es m.reserve

open Reserve

section

variable {offered offered' : LinkKey → Bounds → Prop} {n m k : Node}

theorem Tells.of_eq (he : m.events = n.events) (hr : m.reserve = n.reserve) : n.Tells offered m :=
  ⟨[], he.trans (List.append_nil _).symm, .of_eq hr⟩

theorem Tells.refl (n : Node) : n.Tells offered n := .of_eq rfl rfl

theorem Tells.trans (h : n.Tells offered m) (h' : m.Tells offered k) : n.Tells offered k := by
  obtain ⟨es, he, hs⟩ := h
  obtain ⟨fs, hf, ht⟩ := h'
  exact ⟨es ++ fs, by rw [hf, he, List.append_assoc], hs.trans ht⟩

theorem Tells.mono (h : n.Tells offered m) (hle : ∀ key b, offered key b → offered' key b) :
    n.Tells offered' m := by
  obtain ⟨es, he, hs⟩ := h
  exact ⟨es, he, hs.mono hle⟩

end

variable (n : Node) {offered : LinkKey → Bounds → Prop}

theorem meters_of_find? {key : LinkKey} {l : Link} (h : n.links.find? key = some l) :
    n.reserve.meters key = some l.meter := by
  show (n.links.find? key).map Link.meter = _
  rw [h, Option.map_some]

theorem sessions_of_session? {key : LinkKey} {s : Session} (h : n.charger.session? key = some s) :
    n.reserve.sessions key = some s.untimed := by
  show (n.charger.session? key).map Session.untimed = _
  rw [h, Option.map_some]

theorem sessions_eq_none_iff {key : LinkKey} :
    n.reserve.sessions key = none ↔ n.charger.session? key = none :=
  Option.map_eq_none_iff

/-! ## Parts of the reserve -/

theorem reserve_cancelTimer (id : Option TimerId) : (n.cancelTimer id).reserve = n.reserve := by
  cases id <;> rfl

theorem reserve_insert (key : LinkKey) (l : Link) :
    { n with links := n.links.insert key l }.reserve = n.reserve.withMeter key (some l.meter) := by
  have h : ∀ k, ((n.links.insert key l).find? k).map Link.meter =
      if k = key then some l.meter else (n.links.find? k).map Link.meter := by
    intro k
    rw [Table.find?_insert]
    split <;> rfl
  simp only [reserve, withMeter, h]

theorem reserve_eraseLink (key : LinkKey) :
    { n with links := n.links.erase key }.reserve = n.reserve.withMeter key none := by
  have h : ∀ k, ((n.links.erase key).find? k).map Link.meter =
      if k = key then none else (n.links.find? k).map Link.meter := by
    intro k
    rw [Table.find?_erase]
    split <;> rfl
  simp only [reserve, withMeter, h]

/-- A change of one link in what it has counted. -/
theorem reserve_count {f : LinkStats → LinkStats} {g : Meter → Meter}
    (h : ∀ l : Link, Link.meter { l with stats := f l.stats } = g l.meter) (key : LinkKey) :
    (n.count key f).reserve = n.reserve.withMeter key ((n.reserve.meters key).map g) := by
  have hmeter : ∀ k, ((n.links.modify key fun l => { l with stats := f l.stats }).find? k).map
      Link.meter = if k = key then ((n.links.find? key).map Link.meter).map g
        else (n.links.find? k).map Link.meter := by
    intro k
    rw [Links.find?_modify]
    split
    · rw [Option.map_map, Option.map_map]
      exact congrArg (Option.map · _) (funext h)
    · rfl
  simp only [reserve, count, withMeter, hmeter]

theorem reserve_insertSession (key : LinkKey) (s : Session) :
    { n with charger := { n.charger with sessions := n.charger.sessions.insert key s } }.reserve =
      n.reserve.withSession key (some s.untimed) := by
  have h : ∀ k, ((n.charger.sessions.insert key s).find? k).map Session.untimed =
      if k = key then some s.untimed else (n.charger.session? k).map Session.untimed := by
    intro k
    rw [Table.find?_insert]
    split <;> rfl
  simp only [reserve, withSession, Charger.session?, h]

theorem reserve_eraseSession (key : LinkKey) :
    { n with charger := { n.charger with sessions := n.charger.sessions.erase key } }.reserve =
      n.reserve.withSession key none := by
  have h : ∀ k, ((n.charger.sessions.erase key).find? k).map Session.untimed =
      if k = key then none else (n.charger.session? k).map Session.untimed := by
    intro k
    rw [Table.find?_erase]
    split <;> rfl
  simp only [reserve, withSession, Charger.session?, h]

/-- The timer of the next round is no part of the reserve. -/
theorem reserve_retimed {key : LinkKey} {s : Session} (hs : n.charger.session? key = some s)
    (followUp : Option TimerId) :
    { n with charger := { n.charger with
      sessions := n.charger.sessions.insert key { s with followUp } } }.reserve = n.reserve := by
  rw [reserve_insertSession, show ({ s with followUp } : Session).untimed = s.untimed from rfl,
    ← n.sessions_of_session? hs, withSession_self]

/-! ## Charging -/

theorem tells_abandonCharging (link : LinkKey) (reason : String) :
    n.Tells offered (n.abandonCharging link reason).2 := by
  unfold abandonCharging
  cases hs : n.charger.sessions.find? link with
  | none =>
    simp only [Charger.abandon, hs, Option.map_none]
    exact .refl n
  | some s =>
    have hopen := n.sessions_of_session? hs
    simp only [Charger.abandon, hs, Option.map_some]
    refine ⟨[.chargingAbandoned link s.id s.delivered reason], ?_, ?_⟩
    · show (cancelTimer _ _).events ++ _ = _
      rw [events_cancelTimer]
    · have hreserve : (({ n with charger := (n.charger.abandon link reason).1 }.cancelTimer
          s.followUp).count link .abandoned).reserve = n.reserve.abandoned link := by
        rw [reserve_count _ (g := Meter.abandon) fun _ => rfl, reserve_cancelTimer]
        exact congrArg (fun r : Reserve => r.withMeter link (_ : Option Meter))
          (n.reserve_eraseSession link)
      exact .single (hreserve ▸ .abandoned hopen reason)

theorem tells_requestCharge (link : LinkKey) (bytes : Bytes) (now : Millis) :
    n.Tells offered (n.requestCharge link bytes now) := by
  unfold requestCharge
  split <;> rename_i h
  · exact .of_eq (congrArg (·.2.events) h).symm (congrArg (·.2.reserve) h).symm
  · have hsubmit : n.Tells offered (n.submit (.charge link bytes now)).2 := .of_eq rfl rfl
    rw [h] at hsubmit
    exact hsubmit.trans (tells_abandonCharging _ link _)

/-- The node once a session has been opened on a link. -/
def opening (n : Node) (link : LinkKey) (s : Session) : Node :=
  { n with
    charger := { n.charger with
      sessions := n.charger.sessions.insert link s
      nextSession := n.charger.nextSession + 1 } }.record (.chargingStarted link s.id s.target)

theorem reserve_opening (link : LinkKey) (target : Bytes) (now : Millis) :
    (n.opening link { id := ⟨n.charger.nextSession⟩, target, startedAt := now }).reserve =
      n.reserve.opened link target now :=
  congrArg (fun r : Reserve => { r with nextSession := n.charger.nextSession + 1 })
    (n.reserve_insertSession link _)

/-- A session opens where a link is low and has none, and the transport is asked for its first
round. -/
theorem chargeIfLow_of_low {link : LinkKey} {b : KeyBuffer} (hb : n.links.buffer? link = some b)
    (hlow : b.isBelowThreshold = true) (hs : n.charger.session? link = none) {now : Millis}
    {s : Session} (hopens : s =
      { id := ⟨n.charger.nextSession⟩, target := n.charger.targetFor b, startedAt := now }) :
    n.chargeIfLow link now =
      (n.opening link s).requestCharge link (s.roundSize n.charger.sendSize) now := by
  have hidle : n.charger.sessions.contains link = false := by
    rw [Table.contains_eq_isSome, show n.charger.sessions.find? link = none from hs]
    rfl
  subst hopens
  unfold chargeIfLow Charger.openIfLow
  simp only [hb, hlow, hidle, Bool.not_true, Bool.or_self, Bool.false_eq_true, if_false]
  rfl

theorem chargeIfLow_of_not {link : LinkKey} (h : ∀ l, n.links.find? link = some l →
      l.buffer.isBelowThreshold = true → n.charger.session? link ≠ none) (now : Millis) :
    n.chargeIfLow link now = n := by
  unfold chargeIfLow
  cases hl : n.links.find? link with
  | none =>
    rw [show n.links.buffer? link = none from congrArg (Option.map Link.buffer) hl]
  | some l =>
    rw [show n.links.buffer? link = some l.buffer from congrArg (Option.map Link.buffer) hl]
    have hclosed : (!l.buffer.isBelowThreshold || n.charger.sessions.contains link) = true := by
      rw [Bool.or_eq_true, Bool.not_eq_true', Table.contains_eq_isSome, Option.isSome_iff_ne_none]
      by_cases hlow : l.buffer.isBelowThreshold = true
      · exact .inr (h l hl hlow)
      · exact .inl (Bool.eq_false_iff.2 hlow)
    unfold Charger.openIfLow
    simp only [hclosed, if_true]

/-- A session opens where a link is low and has none. -/
theorem told_chargeIfLow {link : LinkKey} {l : Link} (hl : n.links.find? link = some l)
    (hlow : l.buffer.isBelowThreshold = true) (hs : n.charger.session? link = none) (now : Millis) :
    ∃ s target es, (n.chargeIfLow link now).events =
        n.events ++ .chargingStarted link s target :: es ∧
      Steps offered n.reserve (.chargingStarted link s target :: es)
        (n.chargeIfLow link now).reserve := by
  obtain ⟨s, hopens⟩ : ∃ s : Session, s =
      { id := ⟨n.charger.nextSession⟩, target := n.charger.targetFor l.buffer, startedAt := now } :=
    ⟨_, rfl⟩
  have hcharge := n.chargeIfLow_of_low (congrArg (Option.map Link.buffer) hl) hlow hs hopens
  obtain ⟨es, he, hsteps⟩ : (n.opening link s).Tells offered
      ((n.opening link s).requestCharge link (s.roundSize n.charger.sendSize) now) :=
    tells_requestCharge _ link _ now
  have hopen : Step offered n.reserve [.chargingStarted link s.id s.target]
      (n.opening link s).reserve := by
    subst hopens
    rw [reserve_opening]
    exact .opened (n.meters_of_find? hl) hlow (n.sessions_eq_none_iff.2 hs) _ now
  refine ⟨s.id, s.target, es, ?_, ?_⟩
  · rw [hcharge, he]
    exact List.append_assoc n.events [.chargingStarted link s.id s.target] es
  · rw [hcharge]
    exact (Steps.single hopen).trans hsteps

theorem tells_chargeIfLow (link : LinkKey) (now : Millis) :
    n.Tells offered (n.chargeIfLow link now) := by
  by_cases h : ∃ l, n.links.find? link = some l ∧ l.buffer.isBelowThreshold = true ∧
      n.charger.session? link = none
  · obtain ⟨l, hl, hlow, hs⟩ := h
    obtain ⟨_, _, _, he, hsteps⟩ := n.told_chargeIfLow hl hlow hs now
    exact ⟨_, he, hsteps⟩
  · rw [n.chargeIfLow_of_not fun l hl hlow hs => h ⟨l, hl, hlow, hs⟩]
    exact .refl n

theorem tells_chargingRound (link : LinkKey) (now : Millis) :
    n.Tells offered (n.chargingRound link now) := by
  have htaken : { n with charger := (n.charger.takeFollowUp link).1 }.reserve = n.reserve := by
    unfold Charger.takeFollowUp
    cases hs : n.charger.sessions.find? link with
    | none => rfl
    | some s => exact n.reserve_retimed hs none
  have hfired : n.Tells offered { n with charger := (n.charger.takeFollowUp link).1 } :=
    .of_eq rfl htaken
  unfold chargingRound
  simp only
  split
  · exact hfired
  · exact hfired.trans (tells_requestCharge _ link _ now)

theorem tells_tick (now : Millis) : n.Tells offered (n.tick now) := by
  show n.Tells offered (n.links.keys.foldl (fun n key => n.chargeIfLow key now) n)
  exact List.foldlRecOn (motive := n.Tells offered) n.links.keys _ (.refl n)
    fun m hm k _ => hm.trans (m.tells_chargeIfLow k now)

theorem tells_scheduleTick (now : Millis) : n.Tells offered (n.scheduleTick now) := by
  unfold scheduleTick
  simp only
  split <;> exact .of_eq rfl rfl

/-! ## Packets -/

theorem tells_recordExpired (e : DelayExceeded) : n.Tells offered (n.recordExpired e) := by
  have hreserve := n.reserve_count (f := LinkStats.expired) (g := fun m => m) (fun _ => rfl) e.link
  rw [Option.map_id', withMeter_self] at hreserve
  exact ⟨[.packetExpired e], rfl, .single (hreserve ▸ .noted _ rfl)⟩

theorem tells_armDeadline (p : SecuredPacket) (notBefore : Millis) :
    n.Tells offered (n.armDeadline p notBefore) := by
  unfold armDeadline
  split
  · exact .refl n
  · simp only
    split <;> split <;> exact .of_eq rfl rfl

theorem tells_disarmDeadline (packet : PacketId) : n.Tells offered (n.disarmDeadline packet) :=
  .of_eq (events_cancelTimer _ _) (reserve_cancelTimer _ _)

theorem tells_dispatch (p : SecuredPacket) : n.Tells offered (n.dispatch p).2 := by
  have henqueue : ∀ m : Node, m.Tells offered (m.enqueue p) := fun m =>
    (m.tells_armDeadline p 0).trans (.of_eq rfl rfl)
  have hsubmit : n.Tells offered (n.submit (.secured p)).2 := .of_eq rfl rfl
  unfold dispatch
  split
  · split
    · rename_i m hm
      rw [hm] at hsubmit
      exact hsubmit
    · rename_i m hm
      rw [hm] at hsubmit
      split
      · exact hsubmit.trans (henqueue m)
      · exact hsubmit
  · exact henqueue n

theorem tells_sendWaiting (now : Millis) (ps : List SecuredPacket) :
    n.Tells offered (n.sendWaiting now ps).2.2 := by
  induction ps generalizing n with
  | nil => exact .refl n
  | cons p ps ih =>
    have hsubmit : n.Tells offered (n.submit (.secured p)).2 := .of_eq rfl rfl
    rw [sendWaiting]
    split
    · rename_i e _
      exact ((n.tells_disarmDeadline p.id).trans (tells_recordExpired _ e)).trans (ih _)
    · split
      · rename_i m hm
        rw [hm] at hsubmit
        exact (hsubmit.trans (m.tells_disarmDeadline p.id)).trans (ih _)
      · rename_i m hm
        rw [hm] at hsubmit
        split
        · exact hsubmit
        · exact (hsubmit.trans (m.tells_disarmDeadline p.id)).trans (ih _)

theorem tells_linkReady (nextHop : NodeId) (now : Millis) :
    n.Tells offered (n.linkReady nextHop now).2 := by
  obtain ⟨es, he, hs⟩ := @tells_sendWaiting (n.setQueue nextHop []) offered now (n.queue nextHop)
  exact ⟨es, he, hs⟩

theorem tells_expireWaiting (link : LinkKey) (packet : PacketId) (now : Millis) :
    n.Tells offered (n.expireWaiting link packet now) := by
  have herase : n.Tells offered { n with deadlines := n.deadlines.erase packet } := .of_eq rfl rfl
  unfold expireWaiting
  split
  · simp only
    split
    · exact herase
    · split
      · exact herase
      · split
        · rename_i e _
          refine Tells.trans ?_ (tells_recordExpired _ e)
          exact .of_eq rfl rfl
        · exact herase.trans (tells_armDeadline _ _ now)
  · exact .refl n

theorem tells_onTimer (timer : Timer) (now : Millis) : n.Tells offered (n.onTimer timer now) := by
  cases timer with
  | chargingRound link => exact n.tells_chargingRound link now
  | deadline link packet => exact n.tells_expireWaiting link packet now
  | tick =>
    have hfired : n.Tells offered { n with tickTimer := none } := .of_eq rfl rfl
    unfold onTimer
    simp only
    split
    · exact hfired.trans ((tells_tick _ now).trans (tells_scheduleTick _ now))
    · exact hfired

/-! ## Links that come up -/

theorem tells_bringUp (peer : NodeId) (bounds : Bounds) (now : Millis) :
    n.Tells (fun key b => key = n.linkTo peer ∧ b = bounds) (n.bringUp peer bounds now).2 := by
  unfold bringUp
  simp only
  cases hlinks : Links.establish n.links (n.linkTo peer) bounds now with
  | error e => exact .refl n
  | ok links =>
    obtain ⟨-, hdown, buffer, hb, rfl⟩ := Links.establish_eq_ok_iff.1 hlinks
    have hraised := n.reserve_insert (n.linkTo peer) ⟨buffer, {}, now⟩
    have hstep : Step (fun key b => key = n.linkTo peer ∧ b = bounds) n.reserve []
        { n with links := n.links.insert (n.linkTo peer) ⟨buffer, {}, now⟩ }.reserve :=
      hraised ▸ .raised (congrArg (Option.map Link.meter) hdown) ⟨rfl, rfl⟩ hb
    refine Tells.trans ?_ (tells_chargeIfLow _ _ now)
    exact ⟨[], (List.append_nil _).symm, .single hstep⟩

theorem tells_bringUpAll (now : Millis) (ls : List LinkSettings) :
    n.Tells (fun key b => ∃ l ∈ ls, key = n.linkTo l.peer ∧ b = l.boundsOr n.config.buffer)
      (n.bringUpAll now ls).2 := by
  induction ls generalizing n with
  | nil => exact .refl n
  | cons l ls ih =>
    have hstep := n.tells_bringUp l.peer (l.boundsOr n.config.buffer) now
    have hlater := ih (n.bringUp l.peer (l.boundsOr n.config.buffer) now).2
    have hsettings := (n.raised_bringUp l.peer (l.boundsOr n.config.buffer) now).settings
    have hid : (n.bringUp l.peer (l.boundsOr n.config.buffer) now).2.id = n.id :=
      congrArg Settings.id hsettings
    have hconfig : (n.bringUp l.peer (l.boundsOr n.config.buffer) now).2.config = n.config :=
      congrArg Settings.config hsettings
    refine (hstep.mono ?_).trans (hlater.mono ?_)
    · rintro key b ⟨hk, hb⟩
      exact ⟨l, List.mem_cons_self, hk, hb⟩
    · rintro key b ⟨k, hk, hkey, hb⟩
      rw [linkTo, hid] at hkey
      rw [hconfig] at hb
      exact ⟨k, List.mem_cons_of_mem l hk, hkey, hb⟩

theorem tells_start (now : Millis) : n.Tells ((Call.start now).Offers n) (n.start now).2 := by
  unfold start
  split
  · exact .refl n
  · refine Tells.trans ?_ (tells_scheduleTick _ now)
    exact n.tells_bringUpAll now n.config.links

theorem tells_establish (peer : NodeId) (bounds : Bounds) (now : Millis) :
    n.Tells ((Call.establish peer bounds now).Offers n) (n.establish peer bounds now).2 := by
  have h := n.tells_bringUp peer bounds now
  unfold establish
  split
  · exact .refl n
  · split <;> rename_i hm <;> rw [hm] at h <;> exact h

/-! ## Links that go down -/

theorem closed_teardown (peer : NodeId) :
    Closed n.reserve (n.teardown peer).2.reserve ∧ (n.teardown peer).2.events = n.events := by
  obtain ⟨agenda, h⟩ := n.exists_teardown peer
  have hreserve : (n.teardown peer).2.reserve =
      (n.reserve.withSession (n.linkTo peer) none).withMeter (n.linkTo peer) none := by
    have hdown := (reserve_eraseLink { n with
      charger := (n.charger.cancel (n.linkTo peer)).1 } (n.linkTo peer)).trans
        (congrArg (·.withMeter (n.linkTo peer) none) (n.reserve_eraseSession (n.linkTo peer)))
    exact h ▸ hdown
  refine ⟨⟨?_, ?_⟩, ?_⟩
  · rw [hreserve]
    rfl
  · intro key
    rw [hreserve]
    by_cases hk : key = n.linkTo peer
    · exact .inr ⟨if_pos hk, if_pos hk⟩
    · exact .inl ⟨if_neg hk, if_neg hk⟩
  · rw [h]

theorem closed_teardownAll (keys : List LinkKey) :
    Closed n.reserve (n.teardownAll keys).reserve ∧ (n.teardownAll keys).events = n.events := by
  unfold teardownAll
  induction keys generalizing n with
  | nil => exact ⟨.refl _, rfl⟩
  | cons k ks ih =>
    rw [List.foldl_cons]
    cases k.other n.id with
    | none => exact ih n
    | some peer =>
      obtain ⟨hclosed, hevents⟩ := n.closed_teardown peer
      obtain ⟨hlater, helater⟩ := ih (n.teardown peer).2
      exact ⟨hclosed.trans hlater, helater.trans hevents⟩

theorem closed_shutdown : Closed n.reserve n.shutdown.reserve ∧ n.shutdown.events = n.events := by
  unfold shutdown
  split
  · exact ⟨.refl _, rfl⟩
  · obtain ⟨hclosed, hevents⟩ := n.closed_teardownAll n.links.keys
    have hreserve := (n.teardownAll n.links.keys).reserve_cancelTimer
      (n.teardownAll n.links.keys).tickTimer
    rw [← hreserve] at hclosed
    exact ⟨hclosed, (events_cancelTimer _ _).trans hevents⟩

end Node

end KeyReserve
