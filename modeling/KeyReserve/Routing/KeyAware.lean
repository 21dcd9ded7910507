import KeyReserve.Routing.Grade
import KeyReserve.Routing.Protocols

/-!
# Key-aware routing

The candidates of a protocol are checked against the key buffers of their first links, and the
viable ones moved to the front; among the viable and among the others the native order stays. Each
check reads the buffer itself. What it found is recorded until the buffer crosses its threshold or
a new epoch starts.

## Main definitions

* `RoutingSettings`: how routes are found and judged;
* `KeyAware.appraise`, `KeyAware.rank`, `KeyAware.select`: the check of one route, the order of
  several, and the routes fit for secured traffic;
* `KeyAware.forgetLink`, `KeyAware.newEpoch`: when recorded checks are dropped.

## Main results

* `KeyAware.rank_eq`: the order is a stable partition by viability.
-/

namespace KeyReserve

/-- How routes are found and judged. -/
structure RoutingSettings where
  /-- The role of the protocol in use. -/
  protocol : Role
  /-- The least level that secured traffic needs. -/
  securedMin : Bytes
  /-- The least level that other traffic needs. -/
  bestEffortMin : Bytes
  /-- The length of an epoch; with zero there is only one. -/
  epochLength : Millis
  /-- The seed of the run. -/
  seed : UInt64
  /-- The first random stream that the protocols use. -/
  firstStream : UInt64
  /-- How long a route learned on demand lives. -/
  routeLifetime : Millis
  maxRequestJitter : Millis
  deriving DecidableEq, Inhabited

/-- The position of a route with a class of traffic: secured traffic first. -/
def Route.classRank (k : Route × TrafficClass) : Nat :=
  match k.2 with
  | .secured => 2 * rank k.1
  | .bestEffort => 2 * rank k.1 + 1

theorem Route.eq_of_classRank_eq {a b : Route × TrafficClass}
    (h : Route.classRank a = Route.classRank b) : a = b := by
  obtain ⟨ra, ca⟩ := a
  obtain ⟨rb, cb⟩ := b
  cases ca <;> cases cb <;> simp only [Route.classRank] at h
  · exact congrArg (·, TrafficClass.secured) (Ranked.rank_inj (by omega))
  · omega
  · omega
  · exact congrArg (·, TrafficClass.bestEffort) (Ranked.rank_inj (by omega))

instance : Ranked (Route × TrafficClass) := ⟨Route.classRank, Route.eq_of_classRank_eq⟩

/-- A candidate with what its check found. -/
structure RankedRoute where
  candidate : Candidate
  appraisal : Appraisal
  deriving DecidableEq

/-- Whether a checked candidate may stand before another: one that is not viable stands before none
that is. -/
def RankedRoute.mayPrecede (a b : RankedRoute) : Bool :=
  (!a.appraisal.viable) ≤ (!b.appraisal.viable)

/-- The routes that secured traffic may take. -/
inductive Selection where
  /-- The viable candidates, in native order. -/
  | routes (viable : List RankedRoute)
  /-- There are candidates, but none is viable. -/
  | noViableRoute (others : List RankedRoute)
  | noRoute
  deriving DecidableEq

/-- The record of checks on a node. -/
structure KeyAware where
  home : NodeId
  securedMin : Bytes
  bestEffortMin : Bytes
  epochLength : Millis
  epoch : Nat
  epochStart : Millis
  appraisals : Table (Route × TrafficClass) Appraisal
  /-- The destinations that secured traffic could not reach when it was last tried. -/
  unreachable : Table NodeId Unit

namespace KeyAware

/-- An empty record. -/
def ofSettings (home : NodeId) (s : RoutingSettings) : KeyAware :=
  { home
    securedMin := s.securedMin
    bestEffortMin := s.bestEffortMin
    epochLength := s.epochLength
    epoch := 0
    epochStart := 0
    appraisals := .empty
    unreachable := .empty }

/-- The least level that a class of traffic needs. -/
def least (k : KeyAware) : TrafficClass → Bytes
  | .secured => k.securedMin
  | .bestEffort => k.bestEffortMin

/-- What a check of a route finds now. -/
def evaluate (k : KeyAware) (route : Route) (trafficClass : TrafficClass) (links : Links)
    (now : Millis) : Appraisal :=
  .evaluate route trafficClass (links.buffer? (route.link k.home)) (k.least trafficClass) now
    k.epoch

/-- Checks a route and records what it found. -/
def appraise (k : KeyAware) (route : Route) (trafficClass : TrafficClass) (links : Links)
    (now : Millis) : Appraisal × KeyAware :=
  let found := k.evaluate route trafficClass links now
  (found, { k with appraisals := k.appraisals.insert (route, trafficClass) found })

/-- Checks candidates in their order. -/
def appraiseAll (k : KeyAware) (trafficClass : TrafficClass) (links : Links) (now : Millis) :
    List Candidate → List RankedRoute × KeyAware
  | [] => ([], k)
  | c :: cs =>
    let (found, k) := k.appraise c.route trafficClass links now
    let (rest, k) := k.appraiseAll trafficClass links now cs
    (⟨c, found⟩ :: rest, k)

/-- Checks candidates and moves the viable ones to the front. -/
def rank (k : KeyAware) (candidates : List Candidate) (trafficClass : TrafficClass)
    (links : Links) (now : Millis) : List RankedRoute × KeyAware :=
  let (checked, k) := k.appraiseAll trafficClass links now candidates
  -- the sort is stable, so that each group keeps its native order
  (checked.mergeSort RankedRoute.mayPrecede, k)

/-- Marks a destination as out of reach for secured traffic, and says whether that is new. -/
def markUnreachable (k : KeyAware) (destination : NodeId) : Bool × KeyAware :=
  (!k.unreachable.contains destination,
    { k with unreachable := k.unreachable.insert destination () })

def isUnreachable (k : KeyAware) (destination : NodeId) : Bool :=
  k.unreachable.contains destination

/-- Chooses the routes that secured traffic may take, and marks the destination accordingly. -/
def select (k : KeyAware) (destination : NodeId) (candidates : List Candidate) (links : Links)
    (now : Millis) : Selection × KeyAware :=
  if candidates.isEmpty then
    (.noRoute, k)
  else
    let (ranked, k) := k.rank candidates .secured links now
    -- what the checks found stays recorded in either case
    let viable := ranked.filter (·.appraisal.viable)
    if viable.isEmpty then
      (.noViableRoute ranked, (k.markUnreachable destination).2)
    else
      (.routes viable, { k with unreachable := k.unreachable.erase destination })

/-- What the last check of a route in this epoch found, while it is recorded. -/
def appraisal? (k : KeyAware) (route : Route) (trafficClass : TrafficClass) :
    Option Appraisal :=
  (k.appraisals.find? (route, trafficClass)).filter (·.epoch = k.epoch)

/-- Drops the checks of routes over a link, and gives their number. -/
def forgetLink (k : KeyAware) (link : LinkKey) : Nat × KeyAware :=
  let kept := k.appraisals.filter (fun r _ => r.1.link k.home ≠ link)
  (k.appraisals.size - kept.size, { k with appraisals := kept })

/-- Starts a new epoch, which drops all checks. -/
def newEpoch (k : KeyAware) (now : Millis) : KeyAware :=
  { k with epoch := k.epoch + 1, epochStart := now, appraisals := .empty }

/-- Starts a new epoch if the current one is over, and says whether it was. -/
def maybeNewEpoch (k : KeyAware) (now : Millis) : Bool × KeyAware :=
  if k.epochLength = 0 ∨ now.subSat k.epochStart < k.epochLength then (false, k)
  else (true, k.newEpoch now)

end KeyAware

/-! ## The order of candidates -/

namespace RankedRoute

theorem mayPrecede_iff {a b : RankedRoute} :
    a.mayPrecede b = true ↔ (b.appraisal.viable = true → a.appraisal.viable = true) := by
  unfold mayPrecede
  cases a.appraisal.viable <;> cases b.appraisal.viable <;> decide

theorem mayPrecede_trans (a b c : RankedRoute) (hab : a.mayPrecede b = true)
    (hbc : b.mayPrecede c = true) : a.mayPrecede c = true :=
  mayPrecede_iff.2 fun hc => mayPrecede_iff.1 hab (mayPrecede_iff.1 hbc hc)

theorem mayPrecede_total (a b : RankedRoute) : (a.mayPrecede b || b.mayPrecede a) = true := by
  unfold mayPrecede
  cases a.appraisal.viable <;> cases b.appraisal.viable <;> decide

theorem mayPrecede_of_viable {a b : RankedRoute} (h : a.appraisal.viable = true) :
    a.mayPrecede b = true :=
  mayPrecede_iff.2 fun _ => h

theorem mayPrecede_of_not_viable {a b : RankedRoute} (h : (!b.appraisal.viable) = true) :
    a.mayPrecede b = true :=
  mayPrecede_iff.2 fun hviable => by simp [hviable] at h

/-- Candidates each of which may stand before each other keep their order among themselves. -/
theorem filter_mergeSort {p : RankedRoute → Bool}
    (hp : ∀ a b, p a = true → p b = true → a.mayPrecede b = true) (rs : List RankedRoute) :
    (rs.mergeSort mayPrecede).filter p = rs.filter p := by
  have hgroup : (rs.filter p).Pairwise (fun a b => a.mayPrecede b = true) :=
    List.pairwise_filter.2 (List.pairwise_of_forall fun {a b} => hp a b)
  have hkept : (rs.filter p).Sublist (rs.mergeSort mayPrecede) :=
    List.sublist_mergeSort mayPrecede_trans mayPrecede_total hgroup List.filter_sublist
  have hsub := hkept.filter p
  rw [List.filter_filter] at hsub
  simp only [Bool.and_self] at hsub
  exact (hsub.eq_of_length ((List.mergeSort_perm rs mayPrecede).filter p).length_eq.symm).symm

/-- What is sorted is the viable candidates and then the others. -/
theorem filter_append_filter {rs : List RankedRoute}
    (h : rs.Pairwise (fun a b => a.mayPrecede b = true)) :
    rs.filter (·.appraisal.viable) ++ rs.filter (!·.appraisal.viable) = rs := by
  induction rs with
  | nil => rfl
  | cons r rs ih =>
    obtain ⟨hhead, htail⟩ := List.pairwise_cons.1 h
    cases hr : r.appraisal.viable with
    | true => simp [hr, ih htail]
    | false =>
      have hnone : rs.filter (·.appraisal.viable) = [] :=
        List.filter_eq_nil_iff.2 fun x hx hviable => by
          rw [mayPrecede_iff.1 (hhead x hx) hviable] at hr
          cases hr
      have hrest := ih htail
      rw [hnone, List.nil_append] at hrest
      simp [hr, hnone, hrest]

/-- The sort is a stable partition by viability. -/
theorem mergeSort_eq (rs : List RankedRoute) :
    rs.mergeSort mayPrecede =
      rs.filter (·.appraisal.viable) ++ rs.filter (!·.appraisal.viable) := by
  have hviable := filter_mergeSort (p := (·.appraisal.viable))
    (fun _ _ ha _ => mayPrecede_of_viable ha) rs
  have hothers := filter_mergeSort (p := (!·.appraisal.viable))
    (fun _ _ _ hb => mayPrecede_of_not_viable hb) rs
  have hsorted : (rs.mergeSort mayPrecede).Pairwise (fun a b => a.mayPrecede b = true) :=
    List.pairwise_mergeSort mayPrecede_trans mayPrecede_total rs
  rw [← filter_append_filter hsorted, hviable, hothers]

end RankedRoute

namespace KeyAware

/-- The settings by which routes are judged, and what marks them, stay as they are in a check. -/
theorem evaluate_appraise (k : KeyAware) (route r : Route) (c d : TrafficClass) (links : Links)
    (now : Millis) : (k.appraise route c links now).2.evaluate r d links now =
      k.evaluate r d links now := by
  cases d <;> rfl

theorem appraiseAll_eq (k : KeyAware) (c : TrafficClass) (links : Links) (now : Millis)
    (cs : List Candidate) :
    (k.appraiseAll c links now cs).1 = cs.map fun x => ⟨x, k.evaluate x.route c links now⟩ := by
  induction cs generalizing k with
  | nil => rfl
  | cons x xs ih =>
    simp only [appraiseAll, List.map_cons, List.cons.injEq]
    refine ⟨rfl, ?_⟩
    rw [ih]
    simp only [evaluate_appraise]

/-- Viable candidates come first, and each group keeps its order. -/
theorem rank_eq (k : KeyAware) (cs : List Candidate) (c : TrafficClass) (links : Links)
    (now : Millis) :
    (k.rank cs c links now).1 =
      ((cs.map fun x => ⟨x, k.evaluate x.route c links now⟩).filter (·.appraisal.viable)) ++
      ((cs.map fun x => ⟨x, k.evaluate x.route c links now⟩).filter (!·.appraisal.viable)) := by
  simp only [rank, appraiseAll_eq, RankedRoute.mergeSort_eq]

/-- Each group of a ranking is the group of the candidates as they were checked. -/
theorem filter_rank (k : KeyAware) {p : RankedRoute → Bool}
    (hp : ∀ a b, p a = true → p b = true → a.mayPrecede b = true) (cs : List Candidate)
    (c : TrafficClass) (links : Links) (now : Millis) :
    (k.rank cs c links now).1.filter p =
      (cs.map fun x => (⟨x, k.evaluate x.route c links now⟩ : RankedRoute)).filter p := by
  show ((k.appraiseAll c links now cs).1.mergeSort RankedRoute.mayPrecede).filter p = _
  rw [RankedRoute.filter_mergeSort hp, appraiseAll_eq]

end KeyAware

end KeyReserve
