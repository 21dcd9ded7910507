import KeyReserve.Proofs.OutlookSteps
import KeyReserve.Proofs.Ranking

/-!
# Epochs

What a check of a route has found is recorded with the number of the epoch and the instant of the
check, and a new epoch drops all that is on record. As long as the calls of a node come in the order
of their instants, what is on record is of the current epoch and has been found since it began. A
tick starts a new epoch once the current one is over, however late the tick comes, so that right
after it no check on record is as old as an epoch is long.

## Main definitions

* `KeyAware.Current`: the checks on record are of the current epoch, up to an instant;
* `Call.lastTime`: the last instant that some calls have told;
* `Node.tick?`: the instant at which a call has a node look after its links.

## Main results

* `Outlook.Step.current`: each step keeps the record current;
* `KeyAware.Current.fresh`: what a tick leaves on record is younger than an epoch;
* `Node.checks_within_epoch`: the age of what is on record, over any run.
-/

namespace KeyReserve

open Relation (ReflTransGen)

namespace KeyAware

/-- The current epoch has begun by an instant, and all checks on record have been made in it by
then. -/
structure Current (k : KeyAware) (latest : Millis) : Prop where
  start : k.epochStart ≤ latest
  checks : ∀ r a, k.appraisals.find? r = some a →
    a.epoch = k.epoch ∧ k.epochStart ≤ a.checkedAt ∧ a.checkedAt ≤ latest

variable {k : KeyAware} {latest later now : Millis}

theorem Current.mono (h : k.Current latest) (hle : latest ≤ later) : k.Current later where
  start := UInt64.le_trans h.start hle
  checks r a ha := by
    obtain ⟨hepoch, hsince, huntil⟩ := h.checks r a ha
    exact ⟨hepoch, hsince, UInt64.le_trans huntil hle⟩

theorem Current.forgetLink (h : k.Current latest) (link : LinkKey) :
    (k.forgetLink link).2.Current latest where
  start := h.start
  checks r a ha := by
    rw [KeyAware.forgetLink, Table.find?_filter, Option.filter_eq_some_iff] at ha
    exact h.checks r a ha.1

/-- What is checked now is of the current epoch. -/
theorem Current.checkAll (h : k.Current now) (c : TrafficClass)
    (buffers : LinkKey → Option KeyBuffer) (cs : List Candidate) :
    (k.checkAll c buffers now cs).Current now where
  start := h.start
  checks := by
    rintro ⟨route, d⟩ a ha
    rw [find?_checkAll] at ha
    split at ha
    · cases ha
      exact ⟨rfl, h.start, UInt64.le_refl _⟩
    · exact h.checks _ a ha

theorem Current.maybeNewEpoch (h : k.Current now) : (k.maybeNewEpoch now).2.Current now := by
  unfold KeyAware.maybeNewEpoch
  split
  · exact h
  · exact ⟨UInt64.le_refl _, nofun⟩

/-- Once it has been seen to that the epoch is not over, no check on record is as old as an epoch is
long. -/
theorem Current.fresh (h : k.Current now) (hlength : 0 < k.epochLength)
    {r : Route × TrafficClass} {a : Appraisal}
    (ha : (k.maybeNewEpoch now).2.appraisals.find? r = some a) :
    a.checkedAt ≤ now ∧ now - a.checkedAt < k.epochLength := by
  unfold KeyAware.maybeNewEpoch at ha
  split at ha
  · rename_i hnotOver
    obtain ⟨-, hsince, huntil⟩ := h.checks r a ha
    refine ⟨huntil, ?_⟩
    rw [UInt64.lt_iff_toNat_lt, UInt64.toNat_zero] at hlength
    have hyoung := hnotOver.resolve_left fun hzero => by
      rw [hzero, UInt64.toNat_zero] at hlength
      exact Nat.lt_irrefl 0 hlength
    rw [UInt64.lt_iff_toNat_lt, UInt64.toNat_subSat] at hyoung
    rw [UInt64.le_iff_toNat_le] at hsince
    rw [UInt64.lt_iff_toNat_lt, UInt64.toNat_sub_of_le _ _ huntil]
    omega
  · cases ha

end KeyAware

/-- The record stays current in each step, as long as a step at an instant is taken at the last one. -/
theorem Outlook.Step.current {o o' : Outlook} {c : Call} {latest : Millis} (hstep : Step c o o')
    (hlatest : ∀ now, c.time? = some now → latest = now) (h : o.routing.Current latest) :
    o'.routing.Current latest := by
  cases hstep with
  | aside hbuffers hrouting => exact hrouting ▸ h
  | raised hdown b => exact h
  | lowered key => exact h.forgetLink key
  | @relevelled key b b' hb hminimum hthreshold =>
    unfold relevel
    split
    · exact h
    · exact h.forgetLink key
  | checked hnow trafficClass cs =>
    obtain rfl := hlatest _ hnow
    exact h.checkAll trafficClass o.buffers cs
  | marked hc unreachable => exact ⟨h.start, h.checks⟩
  | ticked hnow =>
    obtain rfl := hlatest _ hnow
    exact h.maybeNewEpoch

theorem Outlook.current_of_steps {o o' : Outlook} {c : Call} {latest : Millis}
    (hsteps : ReflTransGen (Step c) o o') (hlatest : ∀ now, c.time? = some now → latest = now)
    (h : o.routing.Current latest) : o'.routing.Current latest := by
  induction hsteps with
  | refl => exact h
  | tail _ hstep ih => exact hstep.current hlatest ih

/-- The last instant that some calls have told, or zero. -/
def Call.lastTime (calls : List Call) : Millis := (calls.filterMap Call.time?).getLastD 0

theorem Call.lastTime_concat (calls : List Call) (c : Call) :
    lastTime (calls ++ [c]) = c.time?.getD (lastTime calls) := by
  unfold lastTime
  rw [List.filterMap_append]
  cases hc : c.time? with
  | none => simp [hc]
  | some now => simp [hc]

/-- Where instants do not fall, the last one is that of the last call that tells one. -/
theorem Call.lastTime_le {calls : List Call} {c : Call}
    (h : ((calls ++ [c]).filterMap time?).Pairwise (· ≤ ·)) :
    lastTime calls ≤ lastTime (calls ++ [c]) := by
  rw [lastTime_concat]
  cases hc : c.time? with
  | none => exact UInt64.le_refl _
  | some now =>
    rw [List.filterMap_append, List.pairwise_append] at h
    unfold lastTime
    cases hlast : (calls.filterMap time?).getLast? with
    | none =>
      rw [List.getLastD_eq_getLast?, hlast]
      exact UInt64.zero_le
    | some t =>
      rw [List.getLastD_eq_getLast?, hlast]
      exact h.2.2 t (List.mem_of_getLast? hlast) now (by simp [hc])

namespace Node

/-- The instant at which a call has the node look after its links, if it does. -/
def tick? (n : Node) : Call → Option Millis
  | .tick now => some now
  | .timer .tick now => if n.phase = .running then some now else none
  | _ => none

variable {n : Node}

theorem time?_of_tick? {c : Call} {now : Millis} (h : n.tick? c = some now) :
    c.time? = some now := by
  cases c with
  | tick t => exact h
  | timer timer t =>
    cases timer with
    | tick =>
      simp only [tick?, Option.ite_none_right_eq_some] at h
      exact h.2
    | _ => cases h
  | _ => cases h

/-- A tick sees to the epoch, and to nothing else that is recorded of checks. -/
theorem routing_of_tick? {c : Call} {now : Millis} (h : n.tick? c = some now) :
    (n.apply c).routing = (n.routing.maybeNewEpoch now).2 := by
  cases c with
  | tick t =>
    cases h
    exact congrArg Outlook.routing (n.outlook_tick now)
  | timer timer t =>
    cases timer with
    | tick =>
      simp only [tick?, Option.ite_none_right_eq_some, Option.some.injEq] at h
      obtain ⟨hrun, rfl⟩ := h
      have houtlook := n.outlook_onTimer .tick t
      rw [if_pos ⟨rfl, hrun⟩] at houtlook
      exact congrArg Outlook.routing houtlook
    | _ => cases h
  | _ => cases h

/-- Where the instants of the calls do not fall, the record is current at the last of them. -/
theorem current_run {config : Config} {t : Transport} (h : create config t = .ok n)
    {calls : List Call} (htimes : (calls.filterMap Call.time?).Pairwise (· ≤ ·)) :
    (n.run calls).routing.Current (Call.lastTime calls) := by
  induction calls using List.reverseRecOn with
  | nil =>
    unfold create at h
    split at h <;> cases h
    exact ⟨UInt64.le_refl _, nofun⟩
  | append_singleton calls c ih =>
    have hsub : (calls.filterMap Call.time?).Sublist ((calls ++ [c]).filterMap Call.time?) :=
      (List.sublist_append_left calls [c]).filterMap _
    rw [run_concat]
    have hbefore := (ih (htimes.sublist hsub)).mono (Call.lastTime_le htimes)
    have hlatest : ∀ now, c.time? = some now → Call.lastTime (calls ++ [c]) = now := by
      intro now hnow
      rw [Call.lastTime_concat, hnow]
      rfl
    exact Outlook.current_of_steps ((n.run calls).outlook_apply c) hlatest hbefore

/-- Over a run whose calls tell instants that do not fall, every check on record is of the current
epoch and no older than it. Right after a tick, moreover, its age is less than an epoch. -/
theorem checks_within_epoch {config : Config} {t : Transport} (h : create config t = .ok n)
    (hlength : 0 < config.routing.epochLength) {calls : List Call}
    (htimes : (calls.filterMap Call.time?).Pairwise (· ≤ ·)) :
    (∀ before, before <+: calls →
      ∀ r a, (n.run before).routing.appraisals.find? r = some a →
        a.epoch = (n.run before).routing.epoch ∧ (n.run before).routing.epochStart ≤ a.checkedAt) ∧
    ∀ before c now, before ++ [c] <+: calls → (n.run before).tick? c = some now →
      ∀ r a, (n.run (before ++ [c])).routing.appraisals.find? r = some a →
        a.checkedAt ≤ now ∧ now - a.checkedAt < config.routing.epochLength := by
  have hcurrent : ∀ before, before <+: calls →
      (n.run before).routing.Current (Call.lastTime before) := fun before hbefore =>
    current_run h (htimes.sublist (hbefore.sublist.filterMap _))
  constructor
  · intro before hbefore r a ha
    obtain ⟨hepoch, hsince, -⟩ := (hcurrent before hbefore).checks r a ha
    exact ⟨hepoch, hsince⟩
  · intro before c now hbefore htick r a ha
    have hlast : Call.lastTime (before ++ [c]) = now := by
      rw [Call.lastTime_concat, time?_of_tick? htick]
      rfl
    have hle := Call.lastTime_le (htimes.sublist (hbefore.sublist.filterMap _))
    have hnow := (hcurrent before ((List.prefix_append before [c]).trans hbefore)).mono (hlast ▸ hle)
    have hconfigured : (n.run before).routing.epochLength = config.routing.epochLength :=
      congrArg Settings.epochLength
        (((sound_create h).settings_run before).trans (settings_create h))
    rw [run_concat, routing_of_tick? htick] at ha
    rw [← hconfigured] at hlength ⊢
    exact hnow.fresh hlength ha

/-- The first tick leaves a check on record, and the second one, which comes late, drops it. -/
theorem checks_within_epoch_pair : ∃ n a, create .pair .accepting = .ok n ∧
    (n.run (Call.pairRun ++ [.tick 14500])).routing.appraisals.find? (⟨⟨2⟩, ⟨2⟩⟩, .secured) =
      some a ∧
    a.checkedAt = 100 ∧ 14500 - a.checkedAt < Config.pair.routing.epochLength ∧
    (n.run (Call.pairRun ++ [.tick 14500, .tick 40000])).routing.appraisals.isEmpty = true := by
  obtain ⟨n, a, hn, ha, hchecked, hempty⟩ : ∃ n a, create .pair .accepting = .ok n ∧
      (n.run (Call.pairRun ++ [.tick 14500])).routing.appraisals.find? (⟨⟨2⟩, ⟨2⟩⟩, .secured) =
        some a ∧ a.checkedAt = 100 ∧
      (n.run (Call.pairRun ++ [.tick 14500, .tick 40000])).routing.appraisals.isEmpty = true :=
    ⟨_, ⟨⟨⟨2⟩, ⟨2⟩⟩, .secured, true, .healthy, 85, 100, 0⟩, rfl, by decide +kernel, rfl,
      by decide +kernel⟩
  let ticked : List Call := Call.pairRun ++ [.tick 14500, .tick 40000]
  obtain ⟨-, hage⟩ := checks_within_epoch hn (by decide)
    (show (ticked.filterMap Call.time?).Pairwise (· ≤ ·) by decide)
  obtain ⟨-, hyoung⟩ := hage Call.pairRun (.tick 14500) 14500
    (List.prefix_append _ [Call.tick 40000]) rfl _ a ha
  exact ⟨n, a, hn, ha, hchecked, hyoung, hempty⟩

end Node

end KeyReserve
