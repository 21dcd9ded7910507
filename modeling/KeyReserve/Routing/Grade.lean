import KeyReserve.Link.Registry
import KeyReserve.Packet.Basic
import KeyReserve.Routing.Candidate

/-!
# Grades of routes

The state of the key buffer of its first link grades a route, and decides whether the route is
viable for a class of traffic. Secured traffic needs the least level of its class and something
above the floor; other traffic needs the least level of its class, which only a class without one
lets an unsecured link meet.

## Main definitions

* `Grade`, `Grade.ofBuffer`, `viable`: the two judgements of a buffer;
* `Appraisal.evaluate`: both judgements of a route, with the time and epoch of the check.
-/

namespace KeyReserve

/-- How well a route is supplied with key material, from worst to best. -/
inductive Grade where
  /-- There is no secured link. -/
  | unsecured
  /-- The level is at the floor. -/
  | depleted
  /-- The level is below the least one of the class. -/
  | insufficient
  /-- The level is below the threshold. -/
  | low
  | healthy
  deriving DecidableEq, Inhabited

namespace Grade

/-- The place of a grade in the order from worst to best. -/
def level : Grade → Nat
  | .unsecured => 0
  | .depleted => 1
  | .insufficient => 2
  | .low => 3
  | .healthy => 4

instance : LE Grade := ⟨fun a b => a.level ≤ b.level⟩

instance (a b : Grade) : Decidable (a ≤ b) := inferInstanceAs (Decidable (a.level ≤ b.level))

instance : Max Grade := ⟨fun a b => if a ≤ b then b else a⟩

instance : Min Grade := ⟨fun a b => if a ≤ b then a else b⟩

/-- The written form of a grade. -/
def text : Grade → String
  | .unsecured => "unsecured"
  | .depleted => "depleted"
  | .insufficient => "insufficient"
  | .low => "low"
  | .healthy => "healthy"

/-- The grade of a buffer for a class with a least level. -/
def ofBuffer (buffer : Option KeyBuffer) (least : Bytes) : Grade :=
  match buffer with
  | none => .unsecured
  | some b =>
    if b.isDepleted then .depleted
    else if b.current < least then .insufficient
    else if b.isBelowThreshold then .low
    else .healthy

end Grade

/-- Whether a buffer supports traffic of a class with a least level. -/
def viable (trafficClass : TrafficClass) (buffer : Option KeyBuffer) (least : Bytes) : Bool :=
  match trafficClass, buffer with
  | .secured, some b => least ≤ b.current && 0 < b.available
  | .secured, none => false
  | .bestEffort, some b => least ≤ b.current
  | .bestEffort, none => least = 0

/-- What a check of a route found. -/
structure Appraisal where
  route : Route
  trafficClass : TrafficClass
  viable : Bool
  grade : Grade
  available : Bytes
  checkedAt : Millis
  epoch : Nat
  deriving DecidableEq

/-- Checks a route by the buffer of its first link. -/
def Appraisal.evaluate (route : Route) (trafficClass : TrafficClass) (buffer : Option KeyBuffer)
    (least : Bytes) (now : Millis) (epoch : Nat) : Appraisal :=
  { route, trafficClass
    viable := KeyReserve.viable trafficClass buffer least
    grade := .ofBuffer buffer least
    available := (buffer.map (·.available)).getD 0
    checkedAt := now
    epoch }

end KeyReserve
