import KeyReserve.Proofs.OutlookSteps

/-!
# Recorded checks

What a check of a route has found stays on record while buffers move: packets are paid for, key
material comes in, links come up and go down. All of this either leaves the buffer of a link on its
side of the threshold or drops the checks of the routes over that link, so that what is on record
never tells of the other side.

## Main definitions

* `Checks`, `Outlook.checks`: the record of checks, with the buffers as they are;
* `Checks.Agrees`: what a check has found is on the side of the threshold on which the buffer is;
* `Checks.Step`: the changes of buffers and of the record that a node makes.

## Main results

* `Checks.Fair.of_step`: each change leaves a record that agrees with the buffers;
* `Node.checks_apply`: a call makes such changes only;
* `Node.level_of_appraisal`: a recorded check that has found a secured link agrees with its buffer.
-/

namespace KeyReserve

open Relation (ReflTransGen)

/-- The record of checks, with the buffers as they are. -/
structure Checks where
  /-- The node whose routes are checked. -/
  home : NodeId
  buffers : LinkKey → Option KeyBuffer
  found : Table (Route × TrafficClass) Appraisal

def Outlook.checks (o : Outlook) : Checks := ⟨o.routing.home, o.buffers, o.routing.appraisals⟩

namespace Checks

/-- What a check has found is on the side of the threshold on which the buffer is now. -/
structure Agrees (a : Appraisal) (b : KeyBuffer) : Prop where
  side : a.available.toNat + b.minimum.toNat < b.threshold.toNat ↔ b.current < b.threshold
  healthy : a.grade = .healthy → ¬ b.current < b.threshold
  low : a.grade = .low → b.current < b.threshold

/-- Every check on record that has found a secured link agrees with the buffer of that link, which
is still up. -/
def Fair (k : Checks) : Prop :=
  ∀ route c a, k.found.find? (route, c) = some a → a.grade ≠ .unsecured →
    ∃ b, k.buffers (route.link k.home) = some b ∧ Agrees a b

/-- What becomes of the buffers and the record of checks. -/
inductive Step (k : Checks) : Checks → Prop
  | dropped {found : Table (Route × TrafficClass) Appraisal}
      (h : ∀ r a, found.find? r = some a → k.found.find? r = some a) : Step k { k with found }
  | checked (route : Route) (c : TrafficClass) (least : Bytes) (now : Millis) (epoch : Nat) :
      Step k { k with
        found := k.found.insert (route, c)
          (.evaluate route c (k.buffers (route.link k.home)) least now epoch) }
  | raised {key : LinkKey} (hdown : k.buffers key = none) (b : KeyBuffer) :
      Step k { k with buffers := Function.update k.buffers key (some b) }
  /-- The level of a buffer stays on its side of the threshold. -/
  | moved {key : LinkKey} {b b' : KeyBuffer} (hb : k.buffers key = some b)
      (hminimum : b'.minimum = b.minimum) (hthreshold : b'.threshold = b.threshold)
      (hlevel : b'.level = b.level) :
      Step k { k with buffers := Function.update k.buffers key (some b') }
  /-- Whatever becomes of a buffer, the checks of the routes over its link are dropped. -/
  | forgotten (key : LinkKey) (b : Option KeyBuffer) :
      Step k { k with
        buffers := Function.update k.buffers key b
        found := k.found.filter fun r _ => r.1.link k.home ≠ key }

/-! ## Agreement -/

theorem lt_threshold_iff {b b' : KeyBuffer} (h : b'.level = b.level) :
    b'.current < b'.threshold ↔ b.current < b.threshold := by
  have hlow : b'.isBelowThreshold = b.isBelowThreshold := by
    simp only [KeyBuffer.level] at h
    cases hb : b.isBelowThreshold <;> cases hb' : b'.isBelowThreshold <;>
      simp [hb, hb'] at h ⊢
  simpa [KeyBuffer.isBelowThreshold] using hlow

/-- A check agrees with the buffer that it has been made of. -/
theorem agrees_evaluate (route : Route) (c : TrafficClass) (b : KeyBuffer) (least : Bytes)
    (now : Millis) (epoch : Nat) : Agrees (.evaluate route c (some b) least now epoch) b where
  side := by
    have hle := UInt64.le_iff_toNat_le.1 b.minimum_le_current
    have hlevel : b.available.toNat + b.minimum.toNat = b.current.toNat := by
      rw [KeyBuffer.toNat_available]
      omega
    show b.available.toNat + b.minimum.toNat < b.threshold.toNat ↔ _
    rw [hlevel, UInt64.lt_iff_toNat_lt]
  healthy hgrade hlow := by
    simp only [Appraisal.evaluate, Grade.ofBuffer] at hgrade
    split at hgrade
    · cases hgrade
    · split at hgrade
      · cases hgrade
      · split at hgrade
        · cases hgrade
        · rename_i hnot
          exact hnot (decide_eq_true hlow)
  low hgrade := by
    simp only [Appraisal.evaluate, Grade.ofBuffer] at hgrade
    split at hgrade
    · cases hgrade
    · split at hgrade
      · cases hgrade
      · split at hgrade
        · rename_i hlow
          exact of_decide_eq_true hlow
        · cases hgrade

/-- Agreement is about the side of the threshold only. -/
theorem Agrees.of_level {a : Appraisal} {b b' : KeyBuffer} (h : Agrees a b)
    (hminimum : b'.minimum = b.minimum) (hthreshold : b'.threshold = b.threshold)
    (hlevel : b'.level = b.level) : Agrees a b' := by
  have hiff := lt_threshold_iff hlevel
  constructor
  · rw [hminimum, hthreshold, ← hthreshold, hiff, hthreshold]
    exact h.side
  · exact fun hgrade => hiff.not.2 (h.healthy hgrade)
  · exact fun hgrade => hiff.2 (h.low hgrade)

variable {k k' : Checks}

theorem Fair.of_step (h : k.Fair) (hstep : Step k k') : k'.Fair := by
  intro route c a ha hgrade
  cases hstep with
  | dropped hsub => exact h route c a (hsub _ _ ha) hgrade
  | checked r d least now epoch =>
    simp only [Table.find?_insert] at ha
    split at ha
    · rename_i hkey
      obtain ⟨rfl, rfl⟩ := Prod.mk.inj hkey
      cases ha
      cases hb : k.buffers (route.link k.home) with
      | none =>
        rw [hb] at hgrade
        exact absurd rfl hgrade
      | some b => exact ⟨b, rfl, agrees_evaluate _ _ _ _ _ _⟩
    · exact h route c a ha hgrade
  | @raised key hdown b =>
    obtain ⟨b', hb', hagrees⟩ := h route c a ha hgrade
    have hne : route.link k.home ≠ key := fun heq => by
      rw [heq, hdown] at hb'
      cases hb'
    exact ⟨b', (Function.update_of_ne hne _ _).trans hb', hagrees⟩
  | @moved key b b' hb hminimum hthreshold hlevel =>
    obtain ⟨d, hd, hagrees⟩ := h route c a ha hgrade
    by_cases hkey : route.link k.home = key
    · rw [hkey, hb] at hd
      cases hd
      refine ⟨b', ?_, hagrees.of_level hminimum hthreshold hlevel⟩
      simp only [hkey, Function.update_self]
    · exact ⟨d, (Function.update_of_ne hkey _ _).trans hd, hagrees⟩
  | forgotten key b =>
    simp only [Table.find?_filter, Option.filter_eq_some_iff] at ha
    obtain ⟨d, hd, hagrees⟩ := h route c a ha.1 hgrade
    have hne : route.link k.home ≠ key := of_decide_eq_true ha.2
    exact ⟨d, (Function.update_of_ne hne _ _).trans hd, hagrees⟩

theorem Fair.of_steps (h : k.Fair) (hsteps : ReflTransGen Step k k') : k'.Fair := by
  induction hsteps with
  | refl => exact h
  | tail _ hstep ih => exact ih.of_step hstep

end Checks

namespace Outlook

variable (o : Outlook)

/-! ## Changes of the outlook -/

/-- A buffer has another level: a crossing drops the checks over its link. -/
theorem step_relevel {key : LinkKey} {b b' : KeyBuffer} (hb : o.buffers key = some b)
    (hminimum : b'.minimum = b.minimum) (hthreshold : b'.threshold = b.threshold) :
    Checks.Step o.checks (o.relevel key b b').checks := by
  simp only [relevel]
  cases hcrossing : b'.crossingFrom b.level with
  | none =>
    have hlevel : b'.level = b.level := by
      by_contra hne
      rw [KeyBuffer.crossingFrom, if_neg hne] at hcrossing
      cases hcrossing
    exact .moved hb hminimum hthreshold hlevel
  | some x => exact .forgotten key (some b')

theorem steps_checkAll (c : TrafficClass) (now : Millis) (cs : List Candidate) :
    ReflTransGen Checks.Step o.checks
      { o.checks with found := (o.routing.checkAll c o.buffers now cs).appraisals } := by
  have hsteps : ∀ (xs : List Candidate) (k : Checks), ReflTransGen Checks.Step k
      { k with
        found := xs.foldl
          (fun found x => found.insert (x.route, c)
            (.evaluate x.route c (k.buffers (x.route.link k.home)) (o.routing.least c) now
              o.routing.epoch))
          k.found } := by
    intro xs
    induction xs with
    | nil => exact fun k => .refl
    | cons x xs ih =>
      intro k
      exact .head (.checked x.route c (o.routing.least c) now o.routing.epoch) (ih _)
  exact hsteps cs o.checks

/-- Each step of the outlook keeps buffers and record in agreement. -/
theorem steps_checks {o' : Outlook} {c : Call} (h : Outlook.Step c o o') :
    ReflTransGen Checks.Step o.checks o'.checks := by
  cases h with
  | aside hbuffers hrouting =>
    simp only [checks, hbuffers, hrouting]
    exact .refl
  | raised hdown b => exact .single (.raised hdown b)
  | lowered key => exact .single (.forgotten key none)
  | relevelled hb hminimum hthreshold => exact .single (o.step_relevel hb hminimum hthreshold)
  | @checked now hnow trafficClass cs => exact o.steps_checkAll trafficClass now cs
  | marked hc unreachable => exact .refl
  | @ticked now hnow =>
    unfold KeyAware.maybeNewEpoch
    split
    · exact .refl
    · exact .single (.dropped nofun)

end Outlook

namespace Node

open Checks (Step)

variable {n : Node}

/-! ## Calls -/

/-- A call changes buffers and checks in steps that keep them in agreement. -/
theorem checks_apply (n : Node) (c : Call) :
    ReflTransGen Step n.outlook.checks (n.apply c).outlook.checks :=
  (n.outlook_apply c).lift' Outlook.checks fun o _ hstep => o.steps_checks hstep

theorem Reachable.fair (h : n.Reachable) : n.outlook.checks.Fair := by
  induction h with
  | created h =>
    simp only [create] at h
    split at h <;> cases h
    exact nofun
  | called _ c ih => exact ih.of_steps (checks_apply _ c)

/-- Whatever calls have led to a node, what it has on record of a check is on the right side of the
threshold: unless the check has found no secured link, the link of the route is up, the level that
was found lies below the threshold of its buffer exactly when the level there now does, and so does
the grade. -/
theorem level_of_appraisal (h : n.Reachable) {route : Route} {c : TrafficClass} {a : Appraisal}
    (ha : n.routing.appraisal? route c = some a) (hgrade : a.grade ≠ .unsecured) :
    ∃ l, n.links.find? (n.linkTo route.nextHop) = some l ∧
      (a.available.toNat + l.buffer.minimum.toNat < l.buffer.threshold.toNat ↔
        l.buffer.current < l.buffer.threshold) ∧
      (a.grade = .healthy → ¬ l.buffer.current < l.buffer.threshold) ∧
      (a.grade = .low → l.buffer.current < l.buffer.threshold) := by
  have hhome : n.routing.home = n.id := congrArg Settings.home h.sound.configured
  have hfound := (Option.filter_eq_some_iff.1 ha).1
  obtain ⟨b, hb, hagrees⟩ := h.fair route c a hfound hgrade
  have hlink : route.link n.routing.home = n.linkTo route.nextHop := by
    rw [hhome]
    rfl
  obtain ⟨l, hl, rfl⟩ := Option.map_eq_some_iff.1 (hlink ▸ hb)
  exact ⟨l, hl, hagrees.side, hagrees.healthy, hagrees.low⟩

/-- A link has paid for a packet since its route was checked, and is as healthy as then. -/
theorem level_of_appraisal_pair : ∃ n, create .pair .accepting = .ok n ∧
    (n.run Call.pairRun).routing.appraisal? ⟨⟨2⟩, ⟨2⟩⟩ .secured =
      some ⟨⟨⟨2⟩, ⟨2⟩⟩, .secured, true, .healthy, 85, 100, 0⟩ ∧
    ((n.run Call.pairRun).links.buffer? (.join ⟨1⟩ ⟨2⟩)).map (·.current) = some 43 ∧
    ∃ l, (n.run Call.pairRun).links.find? ((n.run Call.pairRun).linkTo ⟨2⟩) = some l ∧
      ((85 : Bytes).toNat + l.buffer.minimum.toNat < l.buffer.threshold.toNat ↔
        l.buffer.current < l.buffer.threshold) ∧
      ¬ l.buffer.current < l.buffer.threshold := by
  obtain ⟨n, hn, hfound, hlevel⟩ : ∃ n, create .pair .accepting = .ok n ∧
      (n.run Call.pairRun).routing.appraisal? ⟨⟨2⟩, ⟨2⟩⟩ .secured =
        some ⟨⟨⟨2⟩, ⟨2⟩⟩, .secured, true, .healthy, 85, 100, 0⟩ ∧
      ((n.run Call.pairRun).links.buffer? (.join ⟨1⟩ ⟨2⟩)).map (·.current) = some 43 :=
    ⟨_, rfl, by decide +kernel, by decide +kernel⟩
  obtain ⟨l, hl, hside, hhealthy, -⟩ :=
    level_of_appraisal ((Reachable.created hn).run Call.pairRun) hfound (by decide)
  exact ⟨n, hn, hfound, hlevel, l, hl, hside, hhealthy rfl⟩

end Node

end KeyReserve
