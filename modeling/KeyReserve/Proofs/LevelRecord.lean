import KeyReserve.Proofs.RecordRuns

/-!
# The record of levels

The log of a link, from the call in which the link came up, tells where its level crossed the
threshold. It does so at every crossing and only there: the crossings go back and forth from the
first level to the present one. A drop is told before anything else that the call tells, and next to
it that the link is charged, unless it is being charged already.

## Main definitions

* `Alternates`: crossings back and forth, from one level to another;
* `Reserve.Levelled`: what is recorded of the levels of a link leads to its present level.

## Main results

* `Reserve.Levelled.of_changed`: what every call keeps;
* `Reserve.levelled_of_raised`: what holds from the call in which a link comes up;
* `Reserve.drop_first`: what a call tells with a drop;
* `Node.levelRecord`: what the log of a run tells of levels.
-/

namespace KeyReserve

/-- The crossing of the threshold of the link that the event reports. -/
def Event.crossing? (key : LinkKey) : Event → Option Crossing
  | .levelChanged k x => if k = key then some x else none
  | _ => none

/-- Crossings back and forth, from one level to another. -/
inductive Alternates : Level → List Crossing → Level → Prop
  | still (a : Level) : Alternates a [] a
  | crossed {a b : Level} {xs : List Crossing} {x : Crossing} (h : Alternates a xs b)
      (hx : x.level ≠ b) : Alternates a (xs ++ [x]) x.level

theorem Alternates.trans {a b c : Level} {xs ys : List Crossing} (h : Alternates a xs b)
    (h' : Alternates b ys c) : Alternates a (xs ++ ys) c := by
  induction h' with
  | still => exact (List.append_nil xs).symm ▸ h
  | crossed _ hx ih =>
    rw [← List.append_assoc]
    exact ih.crossed hx

/-! ## Crossings of a buffer -/

namespace KeyBuffer

/-- From a level to that of a buffer there is a crossing exactly where they differ. -/
theorem alternates_crossingFrom (b : KeyBuffer) (before : Level) :
    Alternates before (b.crossingFrom before).toList b.level := by
  unfold crossingFrom
  split
  · rename_i h
    exact h ▸ .still before
  · rename_i h
    exact (Alternates.still before).crossed (x := ⟨b.level, b.current⟩) h

theorem level_of_crossingFrom {b : KeyBuffer} {before : Level} {x : Crossing}
    (hx : x ∈ (b.crossingFrom before).toList) :
    x.level = .belowThreshold ↔ x.current < b.threshold := by
  unfold crossingFrom at hx
  split at hx
  · cases hx
  · obtain rfl := List.mem_singleton.1 hx
    show b.level = _ ↔ _
    rw [level, isBelowThreshold]
    by_cases hlow : b.current < b.threshold <;> simp [hlow]

end KeyBuffer

variable {key : LinkKey}

theorem crossings_append (es fs : List Event) :
    (es ++ fs).filterMap (Event.crossing? key) =
      es.filterMap (Event.crossing? key) ++ fs.filterMap (Event.crossing? key) :=
  List.filterMap_append

theorem crossings_self (x : Option Crossing) :
    (x.toList.map (Event.levelChanged key)).filterMap (Event.crossing? key) = x.toList := by
  cases x with
  | none => rfl
  | some x => exact List.filterMap_cons_some (if_pos rfl)

theorem crossings_of_ne {k : LinkKey} (h : k ≠ key) (x : Option Crossing) :
    (x.toList.map (Event.levelChanged k)).filterMap (Event.crossing? key) = [] := by
  cases x with
  | none => rfl
  | some x => exact List.filterMap_cons_none (if_neg h)

theorem crossing?_of_isAside {e : Event} (h : e.isAside = true) : e.crossing? key = none := by
  cases e <;> first | rfl | cases h

namespace Reserve

variable {offered : LinkKey → Bounds → Prop} {r u : Reserve} {es fs : List Event}

/-- What is recorded of the levels of a link leads from a first level to the present one, and each
crossing lies on the side of the threshold that it reports. -/
structure Levelled (key : LinkKey) (first : KeyBuffer) (r : Reserve) (es : List Event) : Prop where
  alternates : ∃ m, r.meters key = some m ∧ m.buffer.threshold = first.threshold ∧
    Alternates first.level (es.filterMap (Event.crossing? key)) m.buffer.level
  sides : ∀ x ∈ es.filterMap (Event.crossing? key),
    x.level = .belowThreshold ↔ x.current < first.threshold

/-! ## Steps cross no threshold -/

theorem crossings_of_steps (hs : Steps offered r es u) :
    es.filterMap (Event.crossing? key) = [] := by
  induction hs with
  | refl => rfl
  | step _ hstep ih =>
    rw [crossings_append, ih]
    cases hstep with
    | noted he => exact List.filterMap_cons_none (crossing?_of_isAside he)
    | opened | abandoned | raised => rfl

/-- A link that is up stays up with its buffer. -/
theorem buffer_of_step (hs : Step offered r es u) {m : Meter} (hm : r.meters key = some m) :
    ∃ m', u.meters key = some m' ∧ m'.buffer = m.buffer := by
  cases hs with
  | noted | opened => exact ⟨m, hm, rfl⟩
  | @abandoned k s hs reason =>
    by_cases hk : key = k
    · subst hk
      exact ⟨m.abandon, (if_pos rfl).trans (congrArg _ hm), rfl⟩
    · exact ⟨m, (if_neg hk).trans hm, rfl⟩
  | @raised k bounds b hdown ho hb =>
    have hk : key ≠ k := by
      rintro rfl
      cases hdown.symm.trans hm
    exact ⟨m, (if_neg hk).trans hm, rfl⟩

theorem buffer_of_steps (hs : Steps offered r es u) {m : Meter} (hm : r.meters key = some m) :
    ∃ m', u.meters key = some m' ∧ m'.buffer = m.buffer := by
  induction hs with
  | refl => exact ⟨m, hm, rfl⟩
  | step _ hstep ih =>
    obtain ⟨k, hk, hbuffer⟩ := ih
    obtain ⟨m', hm', hsame⟩ := buffer_of_step hstep hk
    exact ⟨m', hm', hsame.trans hbuffer⟩

/-! ## Levels on the record -/

/-- A change of the level of a link is recorded where it crosses the threshold. -/
theorem Levelled.of_level {first : KeyBuffer} (h : Levelled key first r es) {m m' : Meter}
    (hm : r.meters key = some m) (hm' : u.meters key = some m')
    (hthreshold : m'.buffer.threshold = m.buffer.threshold)
    (hfs : fs.filterMap (Event.crossing? key) = (m'.buffer.crossingFrom m.buffer.level).toList) :
    Levelled key first u (es ++ fs) := by
  obtain ⟨k, hk, hsame, halternates⟩ := h.alternates
  obtain rfl := Option.some.inj (hm.symm.trans hk)
  refine ⟨⟨m', hm', hthreshold.trans hsame, ?_⟩, ?_⟩
  · rw [crossings_append, hfs]
    exact halternates.trans (m'.buffer.alternates_crossingFrom _)
  · intro x hx
    rw [crossings_append, List.mem_append, hfs] at hx
    rcases hx with hx | hx
    · exact h.sides x hx
    · rw [← hsame, ← hthreshold]
      exact KeyBuffer.level_of_crossingFrom hx

/-- Where a link keeps its buffer, nothing is recorded of its level. -/
theorem Levelled.of_same {first : KeyBuffer} (h : Levelled key first r es) {m m' : Meter}
    (hm : r.meters key = some m) (hm' : u.meters key = some m') (hsame : m'.buffer = m.buffer)
    (hfs : fs.filterMap (Event.crossing? key) = []) : Levelled key first u (es ++ fs) := by
  refine h.of_level hm hm' (congrArg _ hsame) ?_
  rw [hfs, hsame, KeyBuffer.crossingFrom, if_pos rfl]
  rfl

theorem Levelled.of_steps {first : KeyBuffer} (h : Levelled key first r es)
    (hs : Steps offered r fs u) : Levelled key first u (es ++ fs) := by
  obtain ⟨m, hm, -⟩ := h.alternates
  obtain ⟨m', hm', hsame⟩ := buffer_of_steps hs hm
  exact h.of_same hm hm' hsame (crossings_of_steps hs)

/-- A credit is recorded where it crosses the threshold, before anything else. -/
theorem Levelled.of_credit {first : KeyBuffer} (h : Levelled key first r es) {k : LinkKey}
    {m m' : Meter} (hm : r.meters k = some m) {bytes : Bytes}
    (hm' : m'.buffer = (m.buffer.credit bytes).1) (hu : u.meters = (r.withMeter k (some m')).meters)
    (hfs : fs.filterMap (Event.crossing? key) = []) :
    Levelled key first u
      (es ++ ((m.buffer.credit bytes).2.crossing.toList.map (.levelChanged k) ++ fs)) := by
  by_cases hk : k = key
  · subst hk
    refine h.of_level hm ((congrFun hu k).trans (if_pos rfl)) ?_ ?_
    · rw [hm']
      rfl
    · rw [crossings_append, hfs, List.append_nil, crossings_self, hm']
      rfl
  · obtain ⟨m₀, hm₀, -⟩ := h.alternates
    refine h.of_same hm₀ ((congrFun hu key).trans ((if_neg (Ne.symm hk)).trans hm₀)) rfl ?_
    rw [crossings_append, crossings_of_ne hk, hfs]
    rfl

/-- What is recorded of the levels of a link leads to its present level after every call that leaves
the link up. -/
theorem Levelled.of_changed {first : KeyBuffer} (h : Levelled key first r es)
    (hup : (u.meters key).isSome = true) (hc : Changed offered r fs u) :
    Levelled key first u (es ++ fs) := by
  obtain ⟨m₀, hm₀, -⟩ := h.alternates
  cases hc with
  | moved hs => exact h.of_steps hs
  | paid hp =>
    cases hp with
    | @debited k m b amount crossing fs _ hm hd hs _ =>
      obtain ⟨-, -, hthreshold, -, -, hcrossing⟩ := KeyBuffer.debit_eq_ok_iff.1 hd
      rw [← List.append_assoc]
      refine Levelled.of_steps ?_ hs
      by_cases hk : k = key
      · subst hk
        refine h.of_level hm (if_pos rfl) hthreshold ?_
        rw [crossings_self, hcrossing]
      · exact h.of_same hm₀ ((if_neg (Ne.symm hk)).trans hm₀) rfl (crossings_of_ne hk crossing)
  | credited hc =>
    cases hc with
    | goesOn hm _ bytes => exact h.of_credit hm rfl rfl rfl
    | completed hm _ _ => exact h.of_credit hm rfl rfl rfl
  | closed hes hc =>
    subst hes
    rcases hc.links key with ⟨hm, -⟩ | ⟨hdown, -⟩
    · exact h.of_same hm₀ (hm.trans hm₀) rfl rfl
    · rw [hdown] at hup
      cases hup

/-! ## Links that come up -/

/-- A link that comes up in steps has the buffer that it was offered. -/
theorem raised_of_steps (hs : Steps offered r es u) (hdown : r.meters key = none) {m : Meter}
    (hm : u.meters key = some m) :
    ∃ bounds, offered key bounds ∧ KeyBuffer.ofBounds bounds = .ok m.buffer := by
  induction hs generalizing m with
  | refl => cases hdown.symm.trans hm
  | @step t u es fs hs hstep ih =>
    cases ht : t.meters key with
    | some k =>
      obtain ⟨m', hm', hsame⟩ := buffer_of_step hstep ht
      obtain rfl := Option.some.inj (hm.symm.trans hm')
      rw [hsame]
      exact ih ht
    | none =>
      cases hstep with
      | noted | opened => cases ht.symm.trans hm
      | @abandoned k s hs reason =>
        by_cases hk : key = k
        · subst hk
          cases ((if_pos rfl).trans (congrArg (Option.map _) ht)).symm.trans hm
        · cases ((if_neg hk).trans ht).symm.trans hm
      | @raised k bounds b _ ho hb =>
        by_cases hk : key = k
        · subst hk
          obtain rfl := Option.some.inj ((if_pos rfl).symm.trans hm)
          exact ⟨bounds, ho, hb⟩
        · cases ((if_neg hk).trans ht).symm.trans hm

theorem levelled_of_steps (hs : Steps offered r es u) (hdown : r.meters key = none)
    (hup : (u.meters key).isSome = true) :
    ∃ bounds first, offered key bounds ∧ KeyBuffer.ofBounds bounds = .ok first ∧
      Levelled key first u es := by
  obtain ⟨m, hm⟩ := Option.isSome_iff_exists.1 hup
  obtain ⟨bounds, ho, hb⟩ := raised_of_steps hs hdown hm
  have hnone : es.filterMap (Event.crossing? key) = [] := crossings_of_steps hs
  refine ⟨bounds, m.buffer, ho, hb, ⟨m, hm, rfl, hnone ▸ .still _⟩, ?_⟩
  rw [hnone]
  exact fun x hx => absurd hx List.not_mem_nil

/-- Once a link has come up in a call, what the call has recorded of its levels leads from the level
that it was offered to the present one. -/
theorem levelled_of_raised (hc : Changed offered r es u) (hdown : r.meters key = none)
    (hup : (u.meters key).isSome = true) :
    ∃ bounds first, offered key bounds ∧ KeyBuffer.ofBounds bounds = .ok first ∧
      Levelled key first u es := by
  have hother : ∀ {k m}, r.meters k = some m → key ≠ k := by
    rintro k m hm rfl
    cases hdown.symm.trans hm
  cases hc with
  | moved hs => exact levelled_of_steps hs hdown hup
  | paid hp =>
    cases hp with
    | @debited k m b amount crossing fs _ hm _ hs _ =>
      obtain ⟨bounds, first, ho, hb, hlevelled⟩ :=
        levelled_of_steps hs ((if_neg (hother hm)).trans hdown) hup
      have hsame : (crossing.toList.map (Event.levelChanged k) ++ fs).filterMap
          (Event.crossing? key) = fs.filterMap (Event.crossing? key) := by
        rw [crossings_append, crossings_of_ne (Ne.symm (hother hm)), List.nil_append]
      exact ⟨bounds, first, ho, hb, hsame ▸ hlevelled.alternates, hsame ▸ hlevelled.sides⟩
  | credited hc =>
    have hstill : u.meters key = none := by
      cases hc with
      | goesOn hm _ _ => exact (if_neg (hother hm)).trans hdown
      | completed hm _ _ => exact (if_neg (hother hm)).trans hdown
    rw [hstill] at hup
    cases hup
  | closed _ hc =>
    rcases hc.links key with ⟨hm, -⟩ | ⟨hnone, -⟩
    · rw [hm, hdown] at hup
      cases hup
    · rw [hnone] at hup
      cases hup

/-! ## Drops -/

theorem not_mem_of_crossings (h : es.filterMap (Event.crossing? key) = []) (x : Crossing) :
    .levelChanged key x ∉ es := by
  intro hmem
  have hx : x ∈ es.filterMap (Event.crossing? key) :=
    List.mem_filterMap.2 ⟨_, hmem, if_pos rfl⟩
  rw [h] at hx
  cases hx

/-- What comes in does not lead below the threshold. -/
theorem isDrop_of_credit {k : LinkKey} {b : KeyBuffer} {bytes : Bytes} {x : Crossing} {e : Event}
    (hmem : .levelChanged key x ∈ (b.credit bytes).2.crossing.toList.map (.levelChanged k) ++ [e])
    (he : e ≠ .levelChanged key x) : x.isDrop = false := by
  rcases List.mem_append.1 hmem with hmem | hmem
  · obtain ⟨y, hy, heq⟩ := List.mem_map.1 hmem
    cases heq
    exact KeyBuffer.isDrop_credit (Option.mem_toList.1 hy)
  · exact absurd (List.mem_singleton.1 hmem).symm he

/-- A drop is told first in a call, and next to it that a session opens, unless one is open. -/
theorem drop_first (hc : Changed offered r es u) {x : Crossing} (hx : x.isDrop = true)
    {pre post : List Event} (hes : es = pre ++ .levelChanged key x :: post) :
    pre = [] ∧ (r.sessions key = none →
      ∃ s target rest, post = .chargingStarted key s target :: rest) := by
  have hmem : .levelChanged key x ∈ es := hes ▸ List.mem_append_right _ List.mem_cons_self
  cases hc with
  | moved hs => exact absurd hmem (not_mem_of_crossings (crossings_of_steps hs) x)
  | paid hp =>
    cases hp with
    | @debited k m b amount crossing fs _ hm _ hs hnext =>
      have hlater : .levelChanged key x ∉ fs := not_mem_of_crossings (crossings_of_steps hs) x
      cases crossing with
      | none => exact absurd hmem hlater
      | some y =>
        cases pre with
        | nil =>
          obtain ⟨hxy, hpost⟩ := List.cons.inj hes
          cases hxy
          exact ⟨rfl, fun hidle => hpost ▸ hnext rfl hidle⟩
        | cons e pre =>
          have hrest : fs = pre ++ .levelChanged key x :: post := (List.cons.inj hes).2
          exact absurd (hrest ▸ List.mem_append_right _ List.mem_cons_self) hlater
  | credited hc =>
    have hrise : x.isDrop = false := by
      cases hc with
      | goesOn => exact isDrop_of_credit hmem nofun
      | completed => exact isDrop_of_credit hmem nofun
    rw [hrise] at hx
    cases hx
  | closed hnone _ => exact absurd (hnone ▸ hmem) List.not_mem_nil

end Reserve

/-! ## Runs -/

namespace Node

open Reserve

variable {n : Node}

/-- From the call in which a link came up on, what is recorded of its levels leads from the level
that it was offered to the present one. -/
theorem UpSince.levelled {before after : List Call} {c : Call} (hs : n.UpSince key before c after)
    (ha : n.reserve.Attended) :
    ∃ bounds first, c.Offers (n.run before) key bounds ∧ KeyBuffer.ofBounds bounds = .ok first ∧
      Levelled key first (n.run (before ++ c :: after)).reserve
        ((n.run before).log (c :: after)) := by
  refine hs.record ha (P := fun r es => ∃ bounds first, c.Offers (n.run before) key bounds ∧
    KeyBuffer.ofBounds bounds = .ok first ∧ Levelled key first r es) ?_ ?_
  · exact fun r es u hc _ hdown hup => levelled_of_raised hc hdown hup
  · rintro offered r es fs u hc - - hup ⟨bounds, first, ho, hb, h⟩
    exact ⟨bounds, first, ho, hb, h.of_changed hup hc⟩

/-- On a node made from any configuration and driven by any calls: each link that is up has come up
in one of the calls, with bounds that the call offered. The crossings recorded of it from that call
on go back and forth from its first level to the present one, and each lies on the side of the
threshold that it reports. Where a call tells that a link has dropped below its threshold, it tells
this first, and next to it that a session of the link starts, unless one was open. -/
theorem levelRecord {config : Config} {t : Transport} (hn : create config t = .ok n)
    (calls : List Call) :
    (∀ key l, (n.run calls).links.find? key = some l →
      ∃ before c after bounds first, calls = before ++ c :: after ∧
        n.UpSince key before c after ∧ c.Offers (n.run before) key bounds ∧
        KeyBuffer.ofBounds bounds = .ok first ∧
        Alternates first.level
          (((n.run before).log (c :: after)).filterMap (Event.crossing? key)) l.buffer.level ∧
        ∀ x ∈ ((n.run before).log (c :: after)).filterMap (Event.crossing? key),
          (x.level = .belowThreshold ↔ x.current < l.buffer.threshold)) ∧
    ∀ cs c key x pre post, calls = cs ++ [c] →
      (n.run cs).told c = pre ++ .levelChanged key x :: post → x.isDrop = true →
      pre = [] ∧ ((n.run cs).charger.session? key = none →
        ∃ s target rest, post = .chargingStarted key s target :: rest) := by
  constructor
  · intro key l hl
    have hdown : n.links.contains key = false := by
      unfold create at hn
      split at hn <;> cases hn
      rfl
    have hup : (n.run calls).links.contains key = true := by
      rw [Table.contains_eq_isSome, hl, Option.isSome_some]
    obtain ⟨before, c, after, rfl, hs⟩ := exists_upSince hdown hup
    obtain ⟨bounds, first, ho, hb, h⟩ := hs.levelled (attended_create hn)
    obtain ⟨m, hm, hthreshold, halternates⟩ := h.alternates
    obtain rfl := Option.some.inj ((meters_of_find? _ hl).symm.trans hm)
    refine ⟨before, c, after, bounds, first, rfl, hs, ho, hb, halternates, ?_⟩
    intro x hx
    rw [show l.buffer.threshold = first.threshold from hthreshold]
    exact h.sides x hx
  · rintro cs c key x pre post - htold hx
    obtain ⟨hfirst, hnext⟩ := drop_first ((n.run cs).changed c) hx htold
    exact ⟨hfirst, fun hidle => hnext ((sessions_eq_none_iff _).2 hidle)⟩

theorem levelRecord_pair : ∃ n x post, create .pair .accepting = .ok n ∧
    (n.run [.start 0, .chargeDelivered ⟨2⟩ 70 100, .sendSecured ⟨⟨7⟩, ⟨2⟩, 20⟩ none 100]).told
      (.sendSecured ⟨⟨8⟩, ⟨2⟩, 1⟩ none 100) = .levelChanged (.join ⟨1⟩ ⟨2⟩) x :: post ∧
    x = ⟨.belowThreshold, 15⟩ ∧
    ∃ s target rest, post = .chargingStarted (.join ⟨1⟩ ⟨2⟩) s target :: rest := by
  obtain ⟨n, post, hn, htold, hidle⟩ : ∃ n post, create .pair .accepting = .ok n ∧
      (n.run [.start 0, .chargeDelivered ⟨2⟩ 70 100, .sendSecured ⟨⟨7⟩, ⟨2⟩, 20⟩ none 100]).told
        (.sendSecured ⟨⟨8⟩, ⟨2⟩, 1⟩ none 100) =
          .levelChanged (.join ⟨1⟩ ⟨2⟩) ⟨.belowThreshold, 15⟩ :: post ∧
      (n.run [.start 0, .chargeDelivered ⟨2⟩ 70 100,
        .sendSecured ⟨⟨7⟩, ⟨2⟩, 20⟩ none 100]).charger.session? (.join ⟨1⟩ ⟨2⟩) = none :=
    ⟨_, [.chargingStarted (.join ⟨1⟩ ⟨2⟩) ⟨2⟩ 85], rfl, by decide +kernel, by decide +kernel⟩
  have hnext := (levelRecord hn _).2 _ _ (.join ⟨1⟩ ⟨2⟩) _ [] post rfl htold rfl
  exact ⟨n, _, post, hn, htold, rfl, hnext.2 hidle⟩

end Node

end KeyReserve
