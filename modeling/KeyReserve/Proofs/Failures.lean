import KeyReserve.Proofs.RecordRuns

/-!
# Calls that fail

A call that fails for another reason than the transport has been refused before it has done
anything. Some operations can fail at a later point, when they have already put key material into a
buffer: a session that ends is looked up once more to be removed, and one that goes on to have its
timer noted. Neither look-up ever fails, and neither does that of the protocol in use.

## Main definitions

* `Node.failure?`: the error with which a call fails;
* `Node.Refuses`: the reasons for which a node refuses a call;
* `Charger.deliver`: a delivery step by step, with the look-up that removes the session.

## Main results

* `Charger.deliver_eq`: the look-up that removes a session never fails;
* `Node.Refuses.outcome`: a call that is refused leaves the whole node as it was;
* `Node.failures`: which calls fail, and that they change nothing.
-/

namespace KeyReserve

/-! ## Deliveries in place -/

/-- A delivery in place: the buffer has been credited and the session moved on when a session that
ends is looked up again to be removed. -/
def Charger.deliver (c : Charger) (link : LinkKey) (buffer : KeyBuffer) (bytes : Bytes) :
    Except ChargingError Delivery × Charger × KeyBuffer :=
  match c.sessions.find? link with
  | none => (.error (.noSession link), c, buffer)
  | some session =>
    let (buffer, credited) := buffer.credit bytes
    let session := session.recordDelivery bytes credited.applied
    let c := { c with sessions := c.sessions.insert link session }
    if buffer.isFull || session.remaining = 0 then
      match c.cancel link with
      | (c, none) => (.error (.noSession link), c, buffer)
      | (c, some gone) => (.ok ⟨credited.applied, credited.crossing, .completed gone⟩, c, buffer)
    else
      (.ok ⟨credited.applied, credited.crossing, .goesOn (session.roundSize c.sendSize)⟩, c, buffer)

/-- The session that has just been moved on is still there to be removed. -/
theorem Charger.cancel_insert (c : Charger) (link : LinkKey) (s : Session) :
    { c with sessions := c.sessions.insert link s }.cancel link =
      ({ c with sessions := c.sessions.erase link }, some s) := by
  have herase : (c.sessions.insert link s).erase link = c.sessions.erase link := by
    refine Table.ext_find? fun k => ?_
    rw [Table.find?_erase, Table.find?_erase, Table.find?_insert]
    split <;> rfl
  have hfind : (c.sessions.insert link s).find? link = some s :=
    (Table.find?_insert _ _ _ _).trans (if_pos rfl)
  simp only [cancel, herase, hfind]

/-- A delivery fails at its first look-up or not at all, and then changes nothing. -/
theorem Charger.deliver_eq (c : Charger) (link : LinkKey) (buffer : KeyBuffer) (bytes : Bytes) :
    c.deliver link buffer bytes =
      match c.receive link buffer bytes with
      | .error e => (.error e, c, buffer)
      | .ok (c', buffer', d) => (.ok d, c', buffer') := by
  unfold deliver receive
  cases c.sessions.find? link with
  | none => rfl
  | some s =>
    simp only [cancel_insert]
    split <;> rfl

theorem Charger.receive_eq_error_iff {c : Charger} {link : LinkKey} {buffer : KeyBuffer}
    {bytes : Bytes} {e : ChargingError} : c.receive link buffer bytes = .error e ↔
      c.session? link = none ∧ e = .noSession link := by
  unfold receive session?
  cases c.sessions.find? link with
  | none => simp only [Except.error.injEq, eq_comm, true_and]
  | some s =>
    simp only [reduceCtorEq, false_and, iff_false]
    split <;> exact nofun

namespace Node

variable {n : Node}

/-! ## Refusals -/

/-- The error of an answer, if it is one. -/
def failureOf {α : Type} : Except NodeError α → Option NodeError
  | .error e => some e
  | .ok _ => none

/-- The error with which a call fails, if it does. -/
def failure? (n : Node) : Call → Option NodeError
  | .start now => failureOf (n.start now).1
  | .establish peer bounds now => failureOf (n.establish peer bounds now).1
  | .sendSecured packet maxDelay now => failureOf (n.sendSecured packet maxDelay now).1
  | .sendBestEffort packet now => failureOf (n.sendBestEffort packet now).1
  | .chargeDelivered peer bytes now => failureOf (n.chargeDelivered peer bytes now).1
  | .advertisement sender destination hops seq now =>
    failureOf (n.onAdvertisement sender destination hops seq now).1
  | .routeReply nextHop destination hops seq now =>
    failureOf (n.onRouteReply nextHop destination hops seq now).1
  | _ => none

/-- The reasons for which a node refuses a call. -/
inductive Refuses (n : Node) : Call → NodeError → Prop where
  | started (now : Millis) (h : n.phase ≠ .created) : Refuses n (.start now) .alreadyStarted
  | stopped (peer : NodeId) (bounds : Bounds) (now : Millis) (h : n.phase = .stopped) :
      Refuses n (.establish peer bounds now) (.notRunning n.phase)
  | barred (peer : NodeId) (bounds : Bounds) (now : Millis) (hphase : n.phase ≠ .stopped)
      {cause : LinkError} (h : Links.establish n.links (n.linkTo peer) bounds now = .error cause) :
      Refuses n (.establish peer bounds now) (.link cause)
  | secured (packet : Packet) (maxDelay : Option Millis) (now : Millis) (h : n.phase ≠ .running) :
      Refuses n (.sendSecured packet maxDelay now) (.notRunning n.phase)
  | bestEffort (packet : Packet) (now : Millis) (h : n.phase ≠ .running) :
      Refuses n (.sendBestEffort packet now) (.notRunning n.phase)
  | down (peer : NodeId) (bytes : Bytes) (now : Millis)
      (h : n.links.find? (n.linkTo peer) = none) :
      Refuses n (.chargeDelivered peer bytes now) (.link (.notFound (n.linkTo peer)))
  | idle (peer : NodeId) (bytes : Bytes) (now : Millis) {l : Link}
      (hl : n.links.find? (n.linkTo peer) = some l)
      (h : n.charger.session? (n.linkTo peer) = none) :
      Refuses n (.chargeDelivered peer bytes now) (.charging (.noSession (n.linkTo peer)))
  | reactive (sender destination : NodeId) (hops : UInt8) (seq : UInt32) (now : Millis)
      (h : n.protocols.proactive = none) :
      Refuses n (.advertisement sender destination hops seq now)
        (.routing (.notInstalled .proactive))
  | proactive (nextHop destination : NodeId) (hops : UInt8) (seq : UInt32) (now : Millis)
      (h : n.protocols.reactive = none) :
      Refuses n (.routeReply nextHop destination hops seq now) (.routing (.notInstalled .reactive))

/-- A call that is refused fails with the reason, and leaves the whole node as it was. -/
theorem Refuses.outcome {c : Call} {e : NodeError} (h : n.Refuses c e) :
    n.failure? c = some e ∧ n.apply c = n := by
  cases h with
  | started now h =>
    rw [failure?, apply, start, if_pos h]
    exact ⟨rfl, rfl⟩
  | stopped peer bounds now h =>
    rw [failure?, apply, establish, if_pos h]
    exact ⟨rfl, rfl⟩
  | barred peer bounds now hphase h =>
    rw [failure?, apply, establish, if_neg hphase, bringUp]
    simp only [h, failureOf, and_self]
  | secured packet maxDelay now h =>
    rw [failure?, apply, sendSecured, if_pos h]
    exact ⟨rfl, rfl⟩
  | bestEffort packet now h =>
    rw [failure?, apply, sendBestEffort, if_pos h]
    exact ⟨rfl, rfl⟩
  | down peer bytes now h =>
    rw [failure?, apply, chargeDelivered]
    simp only [h, failureOf, and_self]
  | idle peer bytes now hl h =>
    rw [failure?, apply, chargeDelivered]
    simp only [hl, Charger.receive_eq_error_iff.2 ⟨h, rfl⟩, failureOf, and_self]
  | reactive sender destination hops seq now h =>
    rw [failure?, apply, onAdvertisement]
    simp only [h, failureOf, and_self]
  | proactive nextHop destination hops seq now h =>
    rw [failure?, apply, onRouteReply]
    simp only [h, failureOf, and_self]

/-! ## No other failures -/

/-- A packet that has been paid for fails at the transport only. -/
theorem failure_sendPaid {secured : Secured} {maxDelay : Option Millis} {now : Millis}
    {e : NodeError} (h : failureOf (n.sendPaid secured maxDelay now).1 = some e) :
    ∃ cause, e = .transport cause := by
  rcases (n.dispatched_sendPaid secured maxDelay now).outcome with
    ⟨hr, -⟩ | ⟨hr, -⟩ | ⟨cause, -, hr, -⟩ <;> rw [hr] at h <;> cases h
  exact ⟨cause, rfl⟩

theorem failure_sendSecured (hconf : n.Configured) (hrun : n.phase = .running) {packet : Packet}
    {maxDelay : Option Millis} {now : Millis} {e : NodeError}
    (h : failureOf (n.sendSecured packet maxDelay now).1 = some e) :
    ∃ cause, e = .transport cause := by
  obtain ⟨cs, q, hcs⟩ := Protocols.candidates_ok hconf.installed packet.destination now
  rw [sendSecured, if_neg (not_not.2 hrun)] at h
  simp only [hcs] at h
  split at h
  · cases h
  · split at h
    · cases h
    · cases h
    · split at h
      · exact failure_sendPaid h
      · cases h

theorem failure_sendBestEffort (hconf : n.Configured) (hrun : n.phase = .running) {packet : Packet}
    {now : Millis} {e : NodeError} (h : failureOf (n.sendBestEffort packet now).1 = some e) :
    ∃ cause, e = .transport cause := by
  obtain ⟨cs, q, hcs⟩ := Protocols.candidates_ok hconf.installed packet.destination now
  rw [sendBestEffort, if_neg (not_not.2 hrun)] at h
  simp only [hcs] at h
  split at h
  · cases h
  · split at h
    · cases h
    · cases h
      exact ⟨_, rfl⟩

/-- A delivery that the charger takes in succeeds: a session that goes on is there to have its timer
noted. -/
theorem chargeDelivered_ok {peer : NodeId} {bytes : Bytes} {l : Link} {c : Charger}
    {b : KeyBuffer} {d : Delivery} (hl : n.links.find? (n.linkTo peer) = some l)
    (hr : n.charger.receive (n.linkTo peer) l.buffer bytes = .ok (c, b, d)) (now : Millis) :
    (n.chargeDelivered peer bytes now).1 = .ok () := by
  obtain ⟨s, s', -, -, -, hprogress⟩ := Charger.receive_progress hr
  obtain ⟨hcharger, -⟩ := n.told_credited hr now
  cases hd : d.progress with
  | completed _ =>
    unfold chargeDelivered
    simp only [hl, hr, hd]
  | goesOn _ =>
    have hresult : (n.chargeDelivered peer bytes now).1 =
        ((n.credited (n.linkTo peer) l c b d now).awaitRound (n.linkTo peer) d.applied b.current
          now).1 := by
      unfold chargeDelivered credited
      cases hx : d.crossing <;> simp only [hl, hr, hd, hx]
    rw [hd] at hprogress
    obtain ⟨-, -, rfl⟩ := hprogress
    exact hresult.trans (congrArg Prod.fst
      (awaitRound_of_session _ (hcharger ▸ Charger.session?_insert _ _ _) _ _ now))

/-- Each failure that does not come from the transport is a refusal. -/
theorem refuses_of_failure (hconf : n.Configured) {c : Call} {e : NodeError}
    (hf : n.failure? c = some e) (he : ∀ cause, e ≠ .transport cause) : n.Refuses c e := by
  have hnone : (∃ cause, e = .transport cause) → n.Refuses c e := fun ⟨cause, h⟩ =>
    absurd h (he cause)
  cases c with
  | start now =>
    rw [failure?, start] at hf
    split at hf
    · rename_i hphase
      cases hf
      exact .started now hphase
    · cases hf
  | establish peer bounds now =>
    rw [failure?, establish] at hf
    split at hf
    · rename_i hphase
      cases hf
      exact .stopped peer bounds now hphase
    · rename_i hphase
      rw [bringUp] at hf
      cases hlinks : Links.establish n.links (n.linkTo peer) bounds now with
      | error cause =>
        simp only [hlinks] at hf
        cases hf
        exact .barred peer bounds now hphase hlinks
      | ok links =>
        simp only [hlinks] at hf
        cases hf
  | sendSecured packet maxDelay now =>
    by_cases hrun : n.phase = .running
    · exact hnone (failure_sendSecured hconf hrun hf)
    · rw [failure?, sendSecured, if_pos hrun] at hf
      cases hf
      exact .secured packet maxDelay now hrun
  | sendBestEffort packet now =>
    by_cases hrun : n.phase = .running
    · exact hnone (failure_sendBestEffort hconf hrun hf)
    · rw [failure?, sendBestEffort, if_pos hrun] at hf
      cases hf
      exact .bestEffort packet now hrun
  | chargeDelivered peer bytes now =>
    cases hl : n.links.find? (n.linkTo peer) with
    | none =>
      have hdown : n.Refuses (.chargeDelivered peer bytes now) _ := .down peer bytes now hl
      cases hf.symm.trans hdown.outcome.1
      exact hdown
    | some l =>
      cases hr : n.charger.receive (n.linkTo peer) l.buffer bytes with
      | error cause =>
        have hidle : n.Refuses (.chargeDelivered peer bytes now) _ :=
          .idle peer bytes now hl (Charger.receive_eq_error_iff.1 hr).1
        cases hf.symm.trans hidle.outcome.1
        exact hidle
      | ok answer =>
        rw [failure?, chargeDelivered_ok hl hr now] at hf
        cases hf
  | advertisement sender destination hops seq now =>
    rw [failure?, onAdvertisement] at hf
    split at hf
    · rename_i hnot
      cases hf
      exact .reactive sender destination hops seq now hnot
    · cases hf
  | routeReply nextHop destination hops seq now =>
    rw [failure?, onRouteReply] at hf
    split at hf
    · rename_i hnot
      cases hf
      exact .proactive nextHop destination hops seq now hnot
    · cases hf
  | _ => cases hf

/-- Failures on a node that any calls have led to. A call fails for another reason than the
transport just where it is refused, and then the whole node is as it was. A delivery in place fails
only where there was no session before it, and then leaves charger and buffer as they were. -/
theorem failures (h : n.Reachable) :
    (∀ c e, (∀ cause, e ≠ .transport cause) →
      (n.failure? c = some e ↔ n.Refuses c e) ∧ (n.failure? c = some e → n.apply c = n)) ∧
    ∀ link (buffer : KeyBuffer) bytes e, (n.charger.deliver link buffer bytes).1 = .error e →
      n.charger.session? link = none ∧
        n.charger.deliver link buffer bytes = (.error e, n.charger, buffer) := by
  have hconf := h.sound.configured
  refine ⟨fun c e he => ⟨⟨?_, ?_⟩, ?_⟩, ?_⟩
  · exact fun hf => refuses_of_failure hconf hf he
  · exact fun hr => hr.outcome.1
  · exact fun hf => (refuses_of_failure hconf hf he).outcome.2
  · intro link buffer bytes e hd
    rw [Charger.deliver_eq] at hd ⊢
    cases hr : n.charger.receive link buffer bytes with
    | error cause =>
      rw [hr] at hd
      cases hd
      exact ⟨(Charger.receive_eq_error_iff.1 hr).1, rfl⟩
    | ok answer =>
      rw [hr] at hd
      cases hd

/-- A delivery that comes when its session has ended is refused. -/
theorem failures_pair : ∃ n : Node, n.Reachable ∧
    n.failure? (.chargeDelivered ⟨2⟩ 5 200) = some (.charging (.noSession (.join ⟨1⟩ ⟨2⟩))) ∧
    n.Refuses (.chargeDelivered ⟨2⟩ 5 200) (.charging (.noSession (.join ⟨1⟩ ⟨2⟩))) ∧
    n.apply (.chargeDelivered ⟨2⟩ 5 200) = n := by
  obtain ⟨n, hn, hf⟩ : ∃ n, create .pair .accepting = .ok n ∧
      (n.run [.start 0, .chargeDelivered ⟨2⟩ 70 100]).failure? (.chargeDelivered ⟨2⟩ 5 200) =
        some (.charging (.noSession (.join ⟨1⟩ ⟨2⟩))) :=
    ⟨_, rfl, by decide +kernel⟩
  have hreachable := (Reachable.created hn).run [.start 0, .chargeDelivered ⟨2⟩ 70 100]
  obtain ⟨hiff, hsame⟩ := (failures hreachable).1 _ _ (nofun : ∀ cause,
    NodeError.charging (.noSession (.join ⟨1⟩ ⟨2⟩)) ≠ .transport cause)
  exact ⟨_, hreachable, hf, hiff.1 hf, hsame hf⟩

end Node

end KeyReserve
