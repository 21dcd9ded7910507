import KeyReserve.Node.Lifecycle
import KeyReserve.Node.Waiting

/-!
# Timers of a node

Timers that have come due are taken off the agenda one after the other, each fired at the time for
which it was set. Firing one may set others, which take their turn.

## Main definitions

* `Node.onTimer`: what a timer does;
* `Node.fireDue`: fires what is due, up to a number of timers.
-/

namespace KeyReserve

namespace Node

/-- Fires a timer. -/
def onTimer (n : Node) (timer : Timer) (now : Millis) : Node :=
  match timer with
  | .chargingRound link => n.chargingRound link now
  | .deadline link packet => n.expireWaiting link packet now
  | .tick =>
    -- the timer that fires is set no longer, so that the next one can be
    let n := { n with tickTimer := none }
    if n.phase = .running then (n.tick now).scheduleTick now else n

/-- Takes the next due timer off the agenda and fires it at its own time. -/
def fireNext (n : Node) (now : Millis) : Option (Agenda.Entry Timer × Node) :=
  match n.agenda.popDue now with
  | none => none
  | some (entry, agenda) => some (entry, { n with agenda }.onTimer entry.event entry.due)

/-- Fires due timers until none is left or a number of them have fired, and gives those fired. -/
def fireDue (n : Node) (now : Millis) : Nat → List (Agenda.Entry Timer) × Node
  | 0 => ([], n)
  | limit + 1 =>
    match n.fireNext now with
    | none => ([], n)
    | some (entry, n) =>
      let (fired, n) := n.fireDue now limit
      (entry :: fired, n)

end Node

end KeyReserve
