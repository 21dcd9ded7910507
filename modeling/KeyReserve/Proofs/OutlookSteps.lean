import KeyReserve.Proofs.DelayBounds
import KeyReserve.Proofs.Outlook

/-!
# Steps of the outlook

What a call does to the buffers of a node and to its record of checks is made up of a few kinds of
steps. Whatever each of them preserves is so preserved by every call, and over every run.

## Main definitions

* `Call.isSecured`: the call has a secured packet sent;
* `Outlook.Step`: a change of the buffers or of the record of checks.

## Main results

* `Node.outlook_apply`: a call makes such changes only.
-/

namespace KeyReserve

open Relation (ReflTransGen)

/-- The call has a packet sent for which key material is to be spent. -/
def Call.isSecured : Call → Bool
  | .sendSecured .. => true
  | _ => false

namespace Outlook

/-- What a call can do to buffers and to the record of checks. -/
inductive Step (c : Call) (o : Outlook) : Outlook → Prop
  /-- Neither is concerned. -/
  | aside {o' : Outlook} (hbuffers : o'.buffers = o.buffers) (hrouting : o'.routing = o.routing) :
      Step c o o'
  | raised {key : LinkKey} (hdown : o.buffers key = none) (b : KeyBuffer) :
      Step c o (o.withBuffer key (some b))
  | lowered (key : LinkKey) : Step c o ((o.withBuffer key none).forgetLink key)
  | relevelled {key : LinkKey} {b b' : KeyBuffer} (hb : o.buffers key = some b)
      (hminimum : b'.minimum = b.minimum) (hthreshold : b'.threshold = b.threshold) :
      Step c o (o.relevel key b b')
  | checked {now : Millis} (hnow : c.time? = some now) (trafficClass : TrafficClass)
      (cs : List Candidate) :
      Step c o { o with routing := o.routing.checkAll trafficClass o.buffers now cs }
  | marked (hc : c.isSecured = true) (unreachable : Table NodeId Unit) :
      Step c o { o with routing := { o.routing with unreachable } }
  | ticked {now : Millis} (hnow : c.time? = some now) :
      Step c o { o with routing := (o.routing.maybeNewEpoch now).2 }

variable {o o' : Outlook} {c : Call}

/-- What is neither a buffer nor recorded of checks may change besides. -/
theorem Step.beside {o'' : Outlook} (h : Step c o o') (hbuffers : o''.buffers = o'.buffers)
    (hrouting : o''.routing = o'.routing) : ReflTransGen (Step c) o o'' :=
  .tail (.single h) (.aside hbuffers hrouting)

variable (o)

theorem steps_bringUp (peer : NodeId) (bounds : Bounds) (now : Millis) :
    ReflTransGen (Step c) o (o.bringUp peer bounds now) := by
  simp only [bringUp]
  split
  · rename_i b _ hdown _
    exact (Step.raised hdown b).beside rfl rfl
  · exact .refl

theorem steps_bringUpAll (now : Millis) (ls : List LinkSettings) :
    ReflTransGen (Step c) o (o.bringUpAll now ls) := by
  induction ls generalizing o with
  | nil => exact .refl
  | cons l ls ih => exact (o.steps_bringUp l.peer (l.boundsOr o.config.buffer) now).trans (ih _)

theorem steps_teardown (peer : NodeId) : ReflTransGen (Step c) o (o.teardown peer) :=
  (Step.lowered (.join o.id peer)).beside rfl rfl

theorem steps_teardownAll (keys : List LinkKey) :
    ReflTransGen (Step c) o (o.teardownAll keys) := by
  induction keys generalizing o with
  | nil => exact .refl
  | cons key keys ih =>
    refine .trans ?_ (ih _)
    simp only
    split
    · exact o.steps_teardown _
    · exact .refl

theorem steps_tick {now : Millis} (hnow : c.time? = some now) :
    ReflTransGen (Step c) o (o.tick now) :=
  (Step.ticked hnow).beside rfl rfl

/-- A secured packet has its routes checked and its destination marked, and relevels one buffer at
most. -/
theorem steps_sends {destination : NodeId} {now : Millis} (hc : c.isSecured = true)
    (hnow : c.time? = some now) (h : o.Sends destination now o') : ReflTransGen (Step c) o o' := by
  have hchecked : ∀ (p : Protocols) (cs : List Candidate) (unreachable : Table NodeId Unit),
      ReflTransGen (Step c) o
        { o with
          protocols := p
          routing := { o.routing.checkAll .secured o.buffers now cs with unreachable } } :=
    fun p cs unreachable =>
      .trans (.single (.checked hnow .secured cs)) ((Step.marked hc unreachable).beside rfl rfl)
  cases h with
  | refused => exact .refl
  | unrouted => exact .single (.aside rfl rfl)
  | checked hrun hcs hne unreachable => exact hchecked _ _ unreachable
  | paid hrun hcs hne unreachable hb hd =>
    obtain ⟨-, hminimum, hthreshold, -⟩ := KeyBuffer.debit_eq_ok_iff.1 hd
    exact (hchecked _ _ unreachable).tail (.relevelled hb hminimum hthreshold)

end Outlook

namespace Node

open Outlook (Step)

variable (n : Node)

theorem steps_sendBestEffort {c : Call} (packet : Packet) {now : Millis}
    (hnow : c.time? = some now) :
    ReflTransGen (Step c) n.outlook (n.sendBestEffort packet now).2.outlook := by
  by_cases hrun : n.phase = .running
  · cases hcs : n.protocols.candidates n.role packet.destination now with
    | error e =>
      rw [n.sendBestEffort_of_refused (.inr ⟨e, hcs⟩)]
    | ok answer =>
      rw [n.outlook_sendBestEffort hrun hcs]
      exact (Step.checked hnow .bestEffort answer.1).beside rfl rfl
  · rw [n.sendBestEffort_of_refused (.inl hrun)]

/-- A call changes buffers and the record of checks in such steps only. -/
theorem outlook_apply (c : Call) : ReflTransGen (Step c) n.outlook (n.apply c).outlook := by
  have hsame : ∀ {m : Node}, m.outlook = n.outlook →
      ReflTransGen (Step c) n.outlook m.outlook := fun h => by rw [h]
  cases c with
  | start now =>
    show ReflTransGen _ _ (n.start now).2.outlook
    rw [outlook_start]
    split
    · exact .refl
    · exact (n.outlook.steps_bringUpAll now n.config.links).tail (.aside rfl rfl)
  | establish peer bounds now =>
    show ReflTransGen _ _ (n.establish peer bounds now).2.outlook
    rw [outlook_establish]
    split
    · exact .refl
    · exact n.outlook.steps_bringUp peer bounds now
  | teardown peer =>
    show ReflTransGen _ _ (n.teardown peer).2.outlook
    rw [outlook_teardown]
    exact n.outlook.steps_teardown peer
  | shutdown =>
    show ReflTransGen _ _ n.shutdown.outlook
    rw [outlook_shutdown]
    split
    · exact .refl
    · exact (n.outlook.steps_teardownAll n.links.keys).tail (.aside rfl rfl)
  | tick now =>
    show ReflTransGen _ _ (n.tick now).outlook
    rw [outlook_tick]
    exact n.outlook.steps_tick rfl
  | timer timer now =>
    show ReflTransGen _ _ (n.onTimer timer now).outlook
    rw [outlook_onTimer]
    split
    · exact n.outlook.steps_tick rfl
    · exact .refl
  | sendSecured packet maxDelay now =>
    exact n.outlook.steps_sends rfl rfl (n.outlook_sendSecured packet maxDelay now)
  | sendBestEffort packet now => exact n.steps_sendBestEffort packet rfl
  | linkReady nextHop now => exact hsame (n.outlook_linkReady nextHop now)
  | chargeDelivered peer bytes now =>
    show ReflTransGen _ _ (n.chargeDelivered peer bytes now).2.outlook
    rcases n.outlook_chargeDelivered peer bytes now with h | ⟨b, hb, h⟩ <;> rw [h]
    exact .single (.relevelled hb rfl rfl)
  | chargeFailed peer reason => exact hsame (n.outlook_abandonCharging _ reason)
  | advertisement sender destination hops seq now =>
    show ReflTransGen _ _ (n.onAdvertisement sender destination hops seq now).2.outlook
    rw [outlook_onAdvertisement]
    exact .single (.aside rfl rfl)
  | routeReply nextHop destination hops seq now =>
    show ReflTransGen _ _ (n.onRouteReply nextHop destination hops seq now).2.outlook
    rw [outlook_onRouteReply]
    exact .single (.aside rfl rfl)
  | drainEvents => exact .refl
  | rearrange agenda => exact .refl

end Node

end KeyReserve
