import KeyReserve.Proofs.NodeWatch

/-!
# Turns

Whoever drives a node on its agenda calls it, and fires its timers: each timer is taken off the
agenda and fired at once, and the agenda is touched in no other way. A turn is one such call or one
timer. Every turn is a few steps of the watch, after which a packet may join a queue.

## Main definitions

* `Turn`, `Node.turn`, `Node.drive`: a turn, what it does, and what turns in a row do.

## Main results

* `Node.exists_run`: turns are calls;
* `Node.step_fired`, `Node.turned`: what a turn does to the watch;
* `Node.timed_drive`: what holds after any turns, whatever numbers the packets have.
-/

namespace KeyReserve

/-- The call neither fires a timer nor touches the agenda from outside. -/
def Call.sparesTimers : Call → Bool
  | .timer .. => false
  | .rearrange _ => false
  | _ => true

/-- A call of a node, or the next timer of its agenda, fired at some time. -/
inductive Turn where
  | call (c : Call) (h : c.sparesTimers = true)
  | fire (now : Millis)

namespace Node

/-- The node after a turn. -/
def turn (n : Node) : Turn → Node
  | .call c _ => n.apply c
  | .fire now =>
    match n.agenda.pop with
    | none => n
    | some (e, agenda) => { n with agenda }.onTimer e.event now

/-- The node after some turns in a row. -/
def drive (n : Node) (turns : List Turn) : Node := turns.foldl turn n

theorem drive_concat (n : Node) (ts : List Turn) (t : Turn) :
    n.drive (ts ++ [t]) = (n.drive ts).turn t :=
  List.foldl_append

/-- The next due timer is taken off the agenda and fired at its own time. -/
theorem fireNext_eq_some {n m : Node} {now : Millis} {e : Agenda.Entry Timer}
    (h : n.fireNext now = some (e, m)) :
    ∃ a, n.agenda.pop = some (e, a) ∧ e.due ≤ now ∧
      m = { n with agenda := a }.onTimer e.event e.due := by
  unfold fireNext at h
  split at h
  · cases h
  · rename_i a hpop
    cases h
    obtain ⟨hpop, hdue⟩ := Agenda.popDue_eq_some hpop
    exact ⟨a, hpop, hdue, rfl⟩

/-- Turns are calls: to fire a timer is to take it off the agenda and then to fire it. -/
theorem exists_run (n : Node) (ts : List Turn) : ∃ cs, n.drive ts = n.run cs := by
  induction ts using List.reverseRecOn with
  | nil => exact ⟨[], rfl⟩
  | append_singleton ts t ih =>
    obtain ⟨cs, hcs⟩ := ih
    rw [drive_concat, hcs]
    cases t with
    | call c _ => exact ⟨cs ++ [c], (n.run_concat cs c).symm⟩
    | fire now =>
      unfold turn
      cases hp : (n.run cs).agenda.pop with
      | none => exact ⟨cs, rfl⟩
      | some next =>
        obtain ⟨e, a⟩ := next
        refine ⟨cs ++ [.rearrange a, .timer e.event now], ?_⟩
        rw [run_append]
        rfl

open Clock

/-! ## The steps of a turn -/

variable {n : Node}

/-- A timer that is taken off the agenda and fired is a step of the watch. -/
theorem step_fired (h : n.Sound) (ht : n.watch.Timed) {e : Agenda.Entry Timer} {a : Agenda Timer}
    (hpop : n.agenda.pop = some (e, a)) (now : Millis) :
    Watch.Step n.watch ({ n with agenda := a }.onTimer e.event now).watch := by
  have hmem : e ∈ n.clock.agenda.entries := by
    show e ∈ n.agenda.entries
    exact Agenda.pop_eq_some hpop ▸ List.mem_cons_self
  generalize hevent : e.event = timer
  cases timer with
  | chargingRound link =>
    have hown := ht.kept.owned e hmem (hevent ▸ not_false)
    exact step_of_rounds (watch_of_stock (stock_chargingRound { n with agenda := a } link now))
      (n.steps_firedRound ht.kept hpop hevent hown now)
  | deadline link packet => exact n.step_firedDeadline h hpop hevent now
  | tick =>
    have hown := ht.kept.owned e hmem (hevent ▸ not_false)
    have hs := n.steps_firedTick ht.kept hpop hevent hown now
    have hstock : ({ n with agenda := a }.onTimer .tick now).stock = n.stock :=
      stock_onTimer_tick { n with agenda := a } now
    refine watch_of_stock hstock ▸ .aside hs (fun t ht => ht) fun _ => .inl ?_
    exact congrArg Option.isSome (hevent ▸ hown)

/-- Every turn is some steps of the watch, after which a packet may join a queue. -/
theorem turned (h : n.Sound) (ht : n.watch.Timed) (t : Turn) : n.watch.Turned (n.turn t).watch := by
  have hrounds : ∀ m : Node, m.stock = n.stock → Steps Timer.AsksRound n.clock m.clock →
      n.watch.Turned m.watch :=
    fun m hm hs => .of_step (step_of_rounds (watch_of_stock hm) hs)
  cases t with
  | call c hc =>
    cases c with
    | start now => exact .of_steps (n.watch_start now)
    | establish peer bounds now => exact .of_steps (n.watch_establish peer bounds now)
    | teardown peer => exact .of_step (n.step_teardown peer)
    | shutdown => exact .of_steps (n.watch_shutdown h)
    | tick now => exact hrounds _ (n.stock_tick now) (n.steps_tick now)
    | timer timer now => cases hc
    | sendSecured packet maxDelay now =>
      obtain ⟨handed, hf⟩ := flow_sendSecured h.configured packet maxDelay now
      exact (n.sends_sendSecured packet maxDelay now).turned hf
    | sendBestEffort packet now =>
      exact (n.sends_sendBestEffort packet now).turned (n.flow_sendBestEffort packet now)
    | linkReady nextHop now => exact .of_step (n.step_linkReady nextHop now)
    | chargeDelivered peer bytes now =>
      have hs := n.steps_chargeDelivered ht.kept peer bytes now
      have hsends : n.Sends (n.chargeDelivered peer bytes now).2 :=
        ⟨_, hs, .inl ⟨rfl, n.queue_chargeDelivered peer bytes now⟩⟩
      exact hsends.turned (n.flow_chargeDelivered peer bytes now)
    | chargeFailed peer reason =>
      exact hrounds _ (n.stock_abandonCharging _ reason) (n.steps_abandonCharging _ reason)
    | advertisement sender destination hops seq now =>
      refine hrounds _ (n.stock_onAdvertisement sender destination hops seq now) ?_
      show Steps _ _ (n.onAdvertisement sender destination hops seq now).2.clock
      unfold onAdvertisement
      split <;> exact .refl _
    | routeReply nextHop destination hops seq now =>
      refine hrounds _ (n.stock_onRouteReply nextHop destination hops seq now) ?_
      show Steps _ _ (n.onRouteReply nextHop destination hops seq now).2.clock
      unfold onRouteReply
      split <;> exact .refl _
    | drainEvents => exact .of_steps .refl
    | rearrange agenda => cases hc
  | fire now =>
    unfold turn
    simp only
    cases hpop : n.agenda.pop with
    | none => exact .of_steps .refl
    | some next => exact .of_step (step_fired h ht hpop now)

/-! ## Turns in a row -/

theorem timed_create {config : Config} {t : Transport} (h : create config t = .ok n) :
    n.watch.Timed := by
  unfold create at h
  split at h <;> cases h
  refine ⟨⟨fun x hx => absurd hx List.not_mem_nil, ?_, fun e he => absurd he List.not_mem_nil⟩, ?_,
    nofun, nofun⟩
  · intro t id hid
    cases t <;> cases hid
  · intro link packet id hid
    cases hid

theorem sound_drive (h : n.Sound) (ts : List Turn) : (n.drive ts).Sound := by
  obtain ⟨cs, hcs⟩ := n.exists_run ts
  exact hcs ▸ h.run cs

/-- What holds after any turns, whatever numbers the packets have. -/
theorem timed_drive (hs : n.Sound) (ht : n.watch.Timed) (ts : List Turn) :
    (n.drive ts).watch.Timed := by
  induction ts using List.reverseRecOn with
  | nil => exact ht
  | append_singleton ts t ih =>
    rw [drive_concat]
    exact ih.of_turned ((n.drive ts).turned (sound_drive hs ts) ih t)

end Node

end KeyReserve
