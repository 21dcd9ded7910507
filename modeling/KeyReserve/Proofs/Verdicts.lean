import KeyReserve.Proofs.OutlookSteps

/-!
# Destinations out of reach

A node marks the destinations that secured traffic could not reach when it was last tried. Within one
call the mark may be taken away and set again: routes are selected by the level that their class
needs, and only then is it seen that no link on them has the price of the packet. In the end the mark
says what the answer says. An answer that tells whether there was a secured route is a verdict on the
destination, and the mark is the last verdict. No call changes it without one.

## Main definitions

* `Node.verdictOf`: what an answer to a secured packet says of its destination;
* `Node.verdict?`, `Node.verdicts`: the verdicts of a call, and of calls in a row;
* `KeyAware.Marks`: the mark of a destination is set as a verdict has it, and no other changes.

## Main results

* `Node.marks_sendSecured`: a secured packet marks its destination by the answer;
* `Node.isUnreachable_run`: the marks after any calls;
* `Node.unreachable_iff_verdicts`: a destination is marked exactly if the last verdict on it says so.
-/

namespace KeyReserve

/-- The link of a pair is charged, and a packet is sent that it cannot pay for. A tick follows, and a
packet to a destination without a route. -/
def Call.dearRun : List Call :=
  [.start 0, .chargeDelivered ⟨2⟩ 65 100, .sendSecured ⟨⟨7⟩, ⟨2⟩, 200⟩ none 100, .tick 20000,
    .sendSecured ⟨⟨8⟩, ⟨3⟩, 20⟩ none 20000]

namespace KeyAware

/-- The mark of a destination is as a verdict has it, or as it was if there is no verdict. The marks of
other destinations are as they were. -/
def Marks (k : KeyAware) (destination : NodeId) (verdict : Option Bool) (k' : KeyAware) : Prop :=
  ∀ d, k'.isUnreachable d =
    if d = destination then verdict.getD (k.isUnreachable d) else k.isUnreachable d

variable {k k' k'' : KeyAware} {destination : NodeId} {verdict : Option Bool}

theorem isUnreachable_congr (h : k'.unreachable = k.unreachable) (d : NodeId) :
    k'.isUnreachable d = k.isUnreachable d := by
  rw [isUnreachable, h]
  rfl

theorem Marks.of_eq (h : k'.unreachable = k.unreachable) : k.Marks destination none k' := fun d => by
  rw [isUnreachable_congr h, Option.getD_none, ite_self]

theorem Marks.set (h : k'.unreachable = k.unreachable.insert destination ()) :
    k.Marks destination (some true) k' := fun d => by
  rw [isUnreachable, h, Table.contains_eq_isSome, Table.find?_insert]
  split <;> rfl

theorem Marks.clear (h : k'.unreachable = k.unreachable.erase destination) :
    k.Marks destination (some false) k' := fun d => by
  rw [isUnreachable, h, Table.contains_eq_isSome, Table.find?_erase]
  split <;> rfl

/-- What is neither set nor taken away after a verdict stays as the verdict had it. -/
theorem Marks.trans_eq (h : k.Marks destination verdict k') (hsame : k''.unreachable = k'.unreachable) :
    k.Marks destination verdict k'' := fun d => (isUnreachable_congr hsame d).trans (h d)

/-- A mark that has been taken away can be set again. -/
theorem Marks.trans_set (h : k.Marks destination verdict k')
    (hset : k''.unreachable = k'.unreachable.insert destination ()) :
    k.Marks destination (some true) k'' := fun d => by
  rw [Marks.set hset d]
  split
  · rfl
  · rename_i hne
    rw [h d, if_neg hne]

end KeyAware

/-- Only a secured packet can change a mark. -/
theorem Outlook.unreachable_of_steps {o o' : Outlook} {c : Call} (hc : c.isSecured = false)
    (h : Relation.ReflTransGen (Step c) o o') : o'.routing.unreachable = o.routing.unreachable := by
  induction h with
  | refl => rfl
  | tail _ hstep ih =>
    refine .trans ?_ ih
    cases hstep with
    | aside hbuffers hrouting => rw [hrouting]
    | raised hdown b => rfl
    | lowered key => rfl
    | relevelled hb hminimum hthreshold =>
      unfold relevel
      split <;> rfl
    | checked hnow trafficClass cs => rfl
    | marked hsecured unreachable => cases hsecured.symm.trans hc
    | ticked hnow =>
      unfold KeyAware.maybeNewEpoch
      split <;> rfl

namespace Node

/-- What an answer to a secured packet says of its destination: whether there was no secured route.
An answer says nothing where no route was known or the packet was refused before one was tried. -/
def verdictOf : Except NodeError SendOutcome → Option Bool
  | .ok (.noSecuredRoute _) => some true
  | .ok (.sent _ _) => some false
  | .ok (.queued _ _) => some false
  | .error (.transport _) => some false
  | .ok (.noRoute _ _) => none
  | .error _ => none

/-- The verdict of a call on a destination, if there is one: that of a secured packet for it. -/
def verdict? (n : Node) (destination : NodeId) : Call → Option Bool
  | .sendSecured packet maxDelay now =>
    if packet.destination = destination then verdictOf (n.sendSecured packet maxDelay now).1 else none
  | _ => none

/-- The verdicts of calls on a destination, in the order of the calls. -/
def verdicts (n : Node) (destination : NodeId) : List Call → List Bool
  | [] => []
  | c :: cs => (n.verdict? destination c).toList ++ (n.apply c).verdicts destination cs

variable (n : Node)

/-! ## One packet -/

theorem routing_requestRoute (destination : NodeId) (now : Millis) :
    (n.requestRoute destination now).2.routing = n.routing :=
  congrArg Outlook.routing (n.outlook_requestRoute destination now)

theorem unreachable_sendPaid (secured : Secured) (maxDelay : Option Millis) (now : Millis) :
    (n.sendPaid secured maxDelay now).2.routing.unreachable = n.routing.unreachable := by
  simp only [sendPaid]
  refine (congrArg (·.routing.unreachable) (outlook_dispatch _ _)).trans ?_
  cases secured.crossing with
  | none => rfl
  | some x => exact congrArg (·.routing.unreachable) (n.outlook_levelCrossed _ x now)

/-- A packet that has been paid for had a secured route, whatever the transport makes of it. -/
theorem verdictOf_sendPaid (secured : Secured) (maxDelay : Option Millis) (now : Millis) :
    verdictOf (n.sendPaid secured maxDelay now).1 = some false := by
  rcases (n.dispatched_sendPaid secured maxDelay now).outcome with
    ⟨hr, -⟩ | ⟨hr, -⟩ | ⟨cause, -, hr, -⟩ <;> rw [hr] <;> rfl

/-- A secured packet marks its destination as the answer says. -/
theorem marks_sendSecured (packet : Packet) (maxDelay : Option Millis) (now : Millis) :
    n.routing.Marks packet.destination (verdictOf (n.sendSecured packet maxDelay now).1)
      (n.sendSecured packet maxDelay now).2.routing := by
  simp only [sendSecured]
  split
  · exact .of_eq rfl
  split
  · exact .of_eq rfl
  rename_i cs p hcs
  split
  · exact .of_eq (congrArg KeyAware.unreachable (routing_requestRoute _ _ now))
  rename_i hempty
  have hne : cs ≠ [] := fun h => hempty (List.isEmpty_iff.2 h)
  obtain ⟨a, ⟨-, others, hselect⟩ | ⟨-, hselect⟩⟩ :=
    n.routing.select_eq packet.destination hne n.links now rfl
  · rw [hselect]
    exact .set rfl
  rw [hselect]
  simp only
  -- the selection takes the mark away before it is known whether the packet can be paid for
  generalize hviable : List.filter _ _ = viable
  let m : Node := { n with
    protocols := p
    routing := { n.routing with
      appraisals := a, unreachable := n.routing.unreachable.erase packet.destination } }
  have hclear : n.routing.Marks packet.destination (some false) m.routing := .clear rfl
  obtain ⟨links, hpay⟩ := m.exists_payOnFirst packet viable
  split <;> rename_i hm <;> rw [hm] at hpay <;> simp only at hpay <;> subst hpay
  · rw [verdictOf_sendPaid]
    exact hclear.trans_eq (unreachable_sendPaid _ _ maxDelay now)
  · exact hclear.trans_set rfl

/-! ## Calls -/

/-- A call leaves each mark as its verdict has it, or as it was. -/
theorem isUnreachable_apply (c : Call) (d : NodeId) :
    (n.apply c).routing.isUnreachable d = (n.verdict? d c).getD (n.routing.isUnreachable d) := by
  cases hc : c.isSecured with
  | true =>
    cases c with
    | sendSecured packet maxDelay now =>
      refine (n.marks_sendSecured packet maxDelay now d).trans ?_
      simp only [verdict?, eq_comm (a := d)]
      split <;> rfl
    | _ => cases hc
  | false =>
    have hnone : n.verdict? d c = none := by
      cases c with
      | sendSecured packet maxDelay now => cases hc
      | _ => rfl
    rw [hnone]
    exact KeyAware.isUnreachable_congr (Outlook.unreachable_of_steps hc (n.outlook_apply c)) d

/-- After any calls the mark of a destination is the last verdict on it. -/
theorem isUnreachable_run (calls : List Call) (d : NodeId) :
    (n.run calls).routing.isUnreachable d =
      (n.verdicts d calls).getLastD (n.routing.isUnreachable d) := by
  induction calls generalizing n with
  | nil => rfl
  | cons c cs ih =>
    refine (ih (n.apply c)).trans ?_
    rw [isUnreachable_apply, verdicts]
    cases n.verdict? d c with
    | none => rfl
    | some v => exact (List.getLastD_cons ..).symm

variable {n}

/-- Over any run, a destination is marked as out of reach exactly if there has been a verdict on it and
the last one was that there is no secured route. A call without a verdict on it leaves its mark
alone. -/
theorem unreachable_iff_verdicts {config : Config} {t : Transport} (h : create config t = .ok n)
    (calls : List Call) (d : NodeId) :
    ((n.run calls).routing.isUnreachable d = true ↔ (n.verdicts d calls).getLast? = some true) ∧
    ∀ c, (n.run calls).verdict? d c = none →
      ((n.run calls).apply c).routing.isUnreachable d = (n.run calls).routing.isUnreachable d := by
  have hnew : n.routing.isUnreachable d = false := by
    unfold create at h
    split at h <;> cases h
    rfl
  constructor
  · rw [isUnreachable_run, hnew, List.getLastD_eq_getLast?]
    cases (n.verdicts d calls).getLast? with
    | none => decide
    | some v => simp
  · intro c hnone
    rw [isUnreachable_apply, hnone]
    rfl

/-- A packet that is too dear has its destination marked, which neither a tick nor a packet to another
destination changes. A cheaper packet takes the mark away. -/
theorem unreachable_iff_verdicts_pair : ∃ n, create .pair .accepting = .ok n ∧
    n.verdicts ⟨2⟩ Call.dearRun = [true] ∧
    (n.run Call.dearRun).routing.isUnreachable ⟨2⟩ = true ∧
    n.verdicts ⟨2⟩ (Call.dearRun ++ [.sendSecured ⟨⟨9⟩, ⟨2⟩, 20⟩ none 20000]) = [true, false] ∧
    ¬ (n.run (Call.dearRun ++ [.sendSecured ⟨⟨9⟩, ⟨2⟩, 20⟩ none 20000])).routing.isUnreachable ⟨2⟩ =
      true := by
  obtain ⟨n, hn, hdear, hcheap⟩ : ∃ n, create .pair .accepting = .ok n ∧
      n.verdicts ⟨2⟩ Call.dearRun = [true] ∧
      n.verdicts ⟨2⟩ (Call.dearRun ++ [.sendSecured ⟨⟨9⟩, ⟨2⟩, 20⟩ none 20000]) = [true, false] :=
    ⟨_, rfl, by decide +kernel, by decide +kernel⟩
  refine ⟨n, hn, hdear, ?_, hcheap, ?_⟩
  · exact (unreachable_iff_verdicts hn _ ⟨2⟩).1.2 (hdear ▸ rfl)
  · rw [(unreachable_iff_verdicts hn _ ⟨2⟩).1, hcheap]
    decide

end Node

end KeyReserve
