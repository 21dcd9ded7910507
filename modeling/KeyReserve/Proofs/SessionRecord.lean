import KeyReserve.Proofs.Reserve

/-!
# Sessions on the record

What is recorded of the charging on a link makes up sessions, one after another: each starts, goes on
and ends, and only the last one may still be open. Every change of a reserve keeps the record in step
with the open session and the counts of the link, and opens sessions in the order of their numbers.

## Main definitions

* `Sessions`: events that make up sessions one after another;
* `Reserve.Accounted`: the record of a link is in step with its open session and its counts;
* `Reserve.Numbered`: sessions are opened in the order of their numbers.

## Main results

* `Sessions.length_opens`: each session has ended or is open;
* `Reserve.Accounted.of_changed`, `Reserve.Numbered.of_changed`: what every call keeps.
-/

namespace KeyReserve

/-! ## Events about charging -/

/-- The event is about charging on the link. -/
def Event.charges (key : LinkKey) : Event → Bool
  | .chargingStarted k .. => k = key
  | .chargingProgress k .. => k = key
  | .chargingCompleted k .. => k = key
  | .chargingAbandoned k .. => k = key
  | _ => false

/-- The number of the session that the event opens. -/
def Event.opens? : Event → Option Nat
  | .chargingStarted _ s _ => some s.val
  | _ => none

/-- Events about charging on a link that make up sessions, one after another: so many of them have
ended, and one may be open at the end. -/
inductive Sessions (key : LinkKey) : List Event → Nat → Option SessionId → Prop
  | blank : Sessions key [] 0 none
  | started {es : List Event} {ended : Nat} (h : Sessions key es ended none) (s : SessionId)
      (target : Bytes) : Sessions key (es ++ [.chargingStarted key s target]) ended (some s)
  | progress {es : List Event} {ended : Nat} {s : SessionId} (h : Sessions key es ended (some s))
      (applied current : Bytes) :
      Sessions key (es ++ [.chargingProgress key s applied current]) ended (some s)
  | completed {es : List Event} {ended : Nat} {s : SessionId} (h : Sessions key es ended (some s))
      (delivered applied : Bytes) :
      Sessions key (es ++ [.chargingCompleted key s delivered applied]) (ended + 1) none
  | abandoned {es : List Event} {ended : Nat} {s : SessionId} (h : Sessions key es ended (some s))
      (delivered : Bytes) (reason : String) :
      Sessions key (es ++ [.chargingAbandoned key s delivered reason]) (ended + 1) none

/-- Each session is opened once, and has then ended or is open. -/
theorem Sessions.length_opens {key : LinkKey} {es : List Event} {ended : Nat}
    {s : Option SessionId} (h : Sessions key es ended s) :
    (es.filterMap Event.opens?).length = ended + if s.isSome then 1 else 0 := by
  induction h with
  | blank => rfl
  | started _ _ _ ih =>
    rw [List.filterMap_append, List.length_append, ih]
    rfl
  | progress _ _ _ ih | completed _ _ _ ih | abandoned _ _ _ ih =>
    rw [List.filterMap_append, List.length_append, ih]
    rfl

variable {key : LinkKey}

theorem Event.charges_of_isAside {e : Event} (h : e.isAside = true) : e.charges key = false := by
  cases e <;> first | rfl | cases h

theorem Event.opens?_of_isAside {e : Event} (h : e.isAside = true) : e.opens? = none := by
  cases e <;> first | rfl | cases h

/-- A crossing is not about charging. -/
theorem filter_charges_crossing (link : LinkKey) (x : Option Crossing) :
    (x.toList.map (Event.levelChanged link)).filter (·.charges key) = [] := by
  cases x <;> rfl

theorem filterMap_opens?_crossing (link : LinkKey) (x : Option Crossing) :
    (x.toList.map (Event.levelChanged link)).filterMap Event.opens? = [] := by
  cases x <;> rfl

theorem not_mem_crossing {link : LinkKey} {x : Option Crossing} {e : Event}
    (he : ∀ y, e ≠ .levelChanged link y) : e ∉ x.toList.map (Event.levelChanged link) := by
  intro hmem
  obtain ⟨y, -, hy⟩ := List.mem_map.1 hmem
  exact he y hy.symm

namespace Reserve

variable {offered : LinkKey → Bounds → Prop} {r t u : Reserve} {es fs : List Event}

/-- The session that is open on a link. -/
def openOn (r : Reserve) (key : LinkKey) : Option SessionId := (r.sessions key).map (·.id)

/-- What is counted on a link: nothing if the link is down. -/
def counted (f : Meter → Nat) (r : Reserve) (key : LinkKey) : Nat := (r.meters key).elim 0 f

/-- The number of sessions of a link that have ended. -/
def ended : Reserve → LinkKey → Nat := counted fun m => m.completed + m.abandoned

/-- What has been charged on a link. -/
def charged : Reserve → LinkKey → Nat := counted Meter.charged

theorem counted_withMeter_of_ne (f : Meter → Nat) {k : LinkKey} (h : k ≠ key) (m : Option Meter) :
    (r.withMeter k m).counted f key = r.counted f key :=
  congrArg (Option.elim · 0 f) (if_neg h.symm)

/-- A new meter that counts as the one before changes no count. -/
theorem counted_withMeter {f : Meter → Nat} {k : LinkKey} {m m' : Option Meter}
    (hm : r.meters k = m) (h : m'.elim 0 f = m.elim 0 f) :
    (r.withMeter k m').counted f key = r.counted f key := by
  by_cases hk : k = key
  · subst hk
    rw [counted, counted, hm, ← h]
    exact congrArg (Option.elim · 0 f) (if_pos rfl)
  · exact counted_withMeter_of_ne f hk m'

/-! ## Sessions on the record -/

/-- What is recorded of the charging on a link is in step with its open session and its counts. -/
def Accounted (key : LinkKey) (r : Reserve) (es : List Event) : Prop :=
  Sessions key (es.filter (·.charges key)) (r.ended key) (r.openOn key)

/-- What is not about the link leaves its record as it is. -/
theorem Accounted.of_same (h : Accounted key r es) (hm : u.ended key = r.ended key)
    (hs : u.sessions key = r.sessions key) (hfs : fs.filter (·.charges key) = []) :
    Accounted key u (es ++ fs) := by
  rw [Accounted, List.filter_append, hfs, List.append_nil, hm, openOn, hs]
  exact h

theorem filter_charges_single {e : Event} (h : e.charges key = true) :
    (es ++ [e]).filter (·.charges key) = es.filter (·.charges key) ++ [e] := by
  rw [List.filter_append, List.filter_cons_of_pos h, List.filter_nil]

theorem filter_charges_other {e : Event} (h : e.charges key = false) :
    [e].filter (·.charges key) = [] :=
  List.filter_cons_of_neg (Bool.eq_false_iff.1 h)

/-- A crossing that is told before an event about charging is not about charging. -/
theorem filter_charges_delivery {k : LinkKey} (x : Option Crossing) {e : Event}
    (h : e.charges key = true) :
    (es ++ (x.toList.map (Event.levelChanged k) ++ [e])).filter (·.charges key) =
      es.filter (·.charges key) ++ [e] := by
  rw [← List.append_assoc, filter_charges_single h, List.filter_append, filter_charges_crossing,
    List.append_nil]

theorem filter_charges_delivery_other {k : LinkKey} (x : Option Crossing) {e : Event}
    (h : e.charges key = false) :
    (x.toList.map (Event.levelChanged k) ++ [e]).filter (·.charges key) = [] := by
  rw [List.filter_append, filter_charges_crossing]
  exact filter_charges_other h

theorem Accounted.of_step (h : Accounted key r es) (ha : r.Attended) (hs : Step offered r fs u) :
    Accounted key u (es ++ fs) := by
  cases hs with
  | noted he => exact h.of_same rfl rfl (filter_charges_other (Event.charges_of_isAside he))
  | @opened k m hm hlow hs target now =>
    by_cases hk : k = key
    · subst hk
      have hclosed : r.openOn k = none := Option.map_eq_none_iff.2 hs
      have hopen : (r.opened k target now).openOn k = some ⟨r.nextSession⟩ :=
        congrArg (Option.map _) (if_pos rfl)
      rw [Accounted, hclosed] at h
      rw [Accounted, hopen, filter_charges_single]
      · exact h.started _ target
      · exact decide_eq_true rfl
    · exact h.of_same rfl (if_neg (Ne.symm hk)) (filter_charges_other (decide_eq_false hk))
  | @abandoned k s hs reason =>
    by_cases hk : k = key
    · subst hk
      obtain ⟨m, hm⟩ := Option.isSome_iff_exists.1 (ha k (hs ▸ rfl))
      have hopen : r.openOn k = some s.id := congrArg (Option.map _) hs
      have hclosed : (r.abandoned k).openOn k = none := congrArg (Option.map _) (if_pos rfl)
      have hended : (r.abandoned k).ended k = r.ended k + 1 := by
        have hmeter : (r.abandoned k).meters k = some m.abandon :=
          (if_pos rfl).trans (congrArg (Option.map _) hm)
        rw [ended, counted, counted, hmeter, hm]
        rfl
      rw [Accounted, hopen] at h
      rw [Accounted, hclosed, hended, filter_charges_single]
      · exact h.abandoned _ reason
      · exact decide_eq_true rfl
    · exact h.of_same (counted_withMeter_of_ne _ hk _) (if_neg (Ne.symm hk))
        (filter_charges_other (decide_eq_false hk))
  | raised hm ho hb => exact h.of_same (counted_withMeter hm rfl) rfl rfl

theorem Accounted.of_steps (h : Accounted key r es) (ha : r.Attended) (hs : Steps offered r fs u) :
    Accounted key u (es ++ fs) := by
  induction hs with
  | refl => exact (List.append_nil es).symm ▸ h
  | step hs hstep ih =>
    rw [← List.append_assoc]
    exact ih.of_step (ha.of_steps hs) hstep

theorem Accounted.of_credited (h : Accounted key r es) (hc : Credited r fs u) :
    Accounted key u (es ++ fs) := by
  cases hc with
  | @goesOn k m s hm hs bytes =>
    by_cases hk : k = key
    · subst hk
      have hopen : r.openOn k = some s.id := congrArg (Option.map _) hs
      have hended : ((r.withMeter k (some (m.credit bytes))).withSession k
          (some (s.recordDelivery bytes (m.buffer.credit bytes).2.applied))).ended k = r.ended k :=
        counted_withMeter hm rfl
      have hsame : ((r.withMeter k (some (m.credit bytes))).withSession k
          (some (s.recordDelivery bytes (m.buffer.credit bytes).2.applied))).openOn k = some s.id :=
        congrArg (Option.map _) (if_pos rfl)
      rw [Accounted, hopen] at h
      rw [Accounted, hended, hsame, filter_charges_delivery]
      · exact h.progress _ _
      · exact decide_eq_true rfl
    · exact h.of_same (counted_withMeter hm rfl) (if_neg (Ne.symm hk))
        (filter_charges_delivery_other _ (decide_eq_false hk))
  | @completed k m s s' bytes hm hs hs' =>
    by_cases hk : k = key
    · subst hk
      have hopen : r.openOn k = some s.id := congrArg (Option.map _) hs
      have hended : ((r.withMeter k (some (m.credit bytes).complete)).withSession k none).ended k =
          r.ended k + 1 := by
        have hmeter : ((r.withMeter k (some (m.credit bytes).complete)).withSession k none).meters k =
            some (m.credit bytes).complete := if_pos rfl
        rw [ended, counted, counted, hmeter, hm]
        exact Nat.add_right_comm _ _ _
      have hclosed : ((r.withMeter k (some (m.credit bytes).complete)).withSession k none).openOn k =
          none := congrArg (Option.map _) (if_pos rfl)
      rw [Accounted, hopen] at h
      rw [Accounted, hended, hclosed, filter_charges_delivery]
      · exact h.completed _ _
      · exact decide_eq_true rfl
    · exact h.of_same (counted_withMeter_of_ne _ hk _) (if_neg (Ne.symm hk))
        (filter_charges_delivery_other _ (decide_eq_false hk))

/-- The record of a link is in step with its sessions and counts after every call that leaves the
link up. -/
theorem Accounted.of_changed (h : Accounted key r es) (ha : r.Attended)
    (hup : (u.meters key).isSome = true) (hc : Changed offered r fs u) :
    Accounted key u (es ++ fs) := by
  cases hc with
  | moved hs => exact h.of_steps ha hs
  | paid hp =>
    cases hp with
    | @debited k m b amount crossing fs _ hm _ hs _ =>
      rw [← List.append_assoc]
      refine Accounted.of_steps ?_ (ha.withMeter _ _) hs
      exact h.of_same (counted_withMeter hm rfl) rfl (filter_charges_crossing k crossing)
  | credited hc => exact h.of_credited hc
  | closed hes hc =>
    subst hes
    rcases hc.links key with ⟨hm, hs⟩ | ⟨hdown, -⟩
    · exact h.of_same (congrArg (Option.elim · 0 _) hm) hs rfl
    · rw [hdown] at hup
      cases hup

/-! ## The numbers of sessions -/

/-- The sessions opened between two reserves, in the order of their numbers. -/
structure Numbered (r : Reserve) (es : List Event) (u : Reserve) : Prop where
  le : r.nextSession ≤ u.nextSession
  pairwise : (es.filterMap Event.opens?).Pairwise (· < ·)
  range : ∀ i ∈ es.filterMap Event.opens?, r.nextSession ≤ i ∧ i < u.nextSession

/-- Where no session is opened, the next one has the same number. -/
theorem Numbered.of_none (h : u.nextSession = r.nextSession)
    (hes : es.filterMap Event.opens? = []) : Numbered r es u := by
  refine ⟨Nat.le_of_eq h.symm, ?_, ?_⟩ <;> rw [hes]
  · exact .nil
  · exact fun _ hi => absurd hi List.not_mem_nil

theorem Numbered.trans (h : Numbered r es t) (h' : Numbered t fs u) : Numbered r (es ++ fs) u where
  le := Nat.le_trans h.le h'.le
  pairwise := by
    rw [List.filterMap_append, List.pairwise_append]
    exact ⟨h.pairwise, h'.pairwise, fun i hi j hj =>
      Nat.lt_of_lt_of_le (h.range i hi).2 (h'.range j hj).1⟩
  range i hi := by
    rw [List.filterMap_append, List.mem_append] at hi
    rcases hi with hi | hi
    · exact ⟨(h.range i hi).1, Nat.lt_of_lt_of_le (h.range i hi).2 h'.le⟩
    · exact ⟨Nat.le_trans h.le (h'.range i hi).1, (h'.range i hi).2⟩

theorem Numbered.of_step (hs : Step offered r es u) : Numbered r es u := by
  cases hs with
  | noted he => exact .of_none rfl (List.filterMap_cons_none (Event.opens?_of_isAside he))
  | opened hm hlow hs target now =>
    refine ⟨Nat.le_succ _, List.pairwise_singleton _ _, ?_⟩
    intro i hi
    rw [List.mem_singleton.1 hi]
    exact ⟨Nat.le_refl _, Nat.lt_succ_self _⟩
  | abandoned hs reason => exact .of_none rfl rfl
  | raised hm ho hb => exact .of_none rfl rfl

theorem Numbered.of_steps (hs : Steps offered r es u) : Numbered r es u := by
  induction hs with
  | refl => exact .of_none rfl rfl
  | step _ hstep ih => exact ih.trans (.of_step hstep)

/-- Each call opens its sessions in the order of their numbers. -/
theorem Numbered.of_changed (hc : Changed offered r es u) : Numbered r es u := by
  cases hc with
  | moved hs => exact .of_steps hs
  | paid hp =>
    cases hp with
    | @debited k m b amount crossing fs _ hm _ hs _ =>
      refine Numbered.trans ?_ (.of_steps hs)
      exact .of_none rfl (filterMap_opens?_crossing k crossing)
  | credited hc =>
    cases hc <;> refine .of_none rfl ?_ <;> rw [List.filterMap_append, filterMap_opens?_crossing] <;>
      rfl
  | closed hes hc => exact .of_none hc.nextSession (hes ▸ rfl)

end Reserve

end KeyReserve
