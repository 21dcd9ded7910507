import KeyReserve.Proofs.Outlook

/-!
# The order of grades

A check of a route grades the buffer of its first link, and says apart from that whether the route is
viable. Both come down to lower bounds on the level of the buffer. So what a check finds gets no worse
when the level rises and no better when the class of traffic needs more, and secured traffic may take
a route exactly where the grade is one of the two best.

## Main definitions

* `Grade.Reached`: a buffer meets the bounds of a grade;
* `KeyBuffer.Rises`: one buffer has the bounds of another, and no lower level;
* `Appraisal.Covers`: one check finds no less than another;
* `Outlook.evaluate`: what a node would find.

## Main results

* `Grade.le_ofBuffer_iff`: the grade of a buffer is the best one whose bounds it meets;
* `viable_secured_iff`: which grades are viable for secured traffic;
* `Appraisal.covers_evaluate`: checks of a higher level, or for a class that needs less;
* `KeyAware.evaluate_order`: levels, classes, credits and debits;
* `Node.covers_chargeDelivered`, `Node.covers_sendSecured`: no delivery makes a route worse, and no
  secured packet makes one better.
-/

namespace KeyReserve

namespace Grade

theorem le_def {a b : Grade} : a ≤ b ↔ a.level ≤ b.level := Iff.rfl

/-- The bounds that a buffer meets whose grade is this one or a better one. -/
def Reached (buffer : Option KeyBuffer) (least : Bytes) (g : Grade) : Prop :=
  match g, buffer with
  | .unsecured, _ => True
  | _, none => False
  | .depleted, some _ => True
  | .insufficient, some b => b.minimum < b.current
  | .low, some b => b.minimum < b.current ∧ least ≤ b.current
  | .healthy, some b => b.minimum < b.current ∧ least ≤ b.current ∧ b.threshold ≤ b.current

theorem ofBuffer_some (b : KeyBuffer) (least : Bytes) :
    ofBuffer (some b) least =
      if b.minimum < b.current then
        if least ≤ b.current then
          if b.threshold ≤ b.current then .healthy else .low
        else .insufficient
      else .depleted := by
  have hfloor : b.isDepleted = true ↔ ¬ b.minimum < b.current := by
    have hle := UInt64.le_iff_toNat_le.1 b.minimum_le_current
    rw [KeyBuffer.isDepleted, decide_eq_true_iff, ← UInt64.toNat_inj, UInt64.lt_iff_toNat_lt]
    omega
  have hlow : b.isBelowThreshold = true ↔ ¬ b.threshold ≤ b.current := by
    rw [KeyBuffer.isBelowThreshold, decide_eq_true_iff, UInt64.not_le]
  simp only [ofBuffer, hfloor, hlow, ite_not, ← UInt64.not_le]

/-- The grade of a buffer is the best one whose bounds it meets. -/
theorem le_ofBuffer_iff {buffer : Option KeyBuffer} {least : Bytes} {g : Grade} :
    g ≤ ofBuffer buffer least ↔ Reached buffer least g := by
  cases buffer with
  | none => cases g <;> simp [Reached, ofBuffer, le_def, level]
  | some b =>
    rw [ofBuffer_some]
    by_cases hfloor : b.minimum < b.current <;> by_cases hleast : least ≤ b.current <;>
      by_cases hlow : b.threshold ≤ b.current <;> cases g <;>
      simp [Reached, hfloor, hleast, hlow, le_def, level]

end Grade

/-! ## Levels that rise -/

/-- A buffer with the same bounds, and with a level that is no lower. -/
structure KeyBuffer.Rises (b b' : KeyBuffer) : Prop where
  minimum : b'.minimum = b.minimum
  threshold : b'.threshold = b.threshold
  maximum : b'.maximum = b.maximum
  current : b.current ≤ b'.current

namespace KeyBuffer

theorem Rises.refl (b : KeyBuffer) : b.Rises b := ⟨rfl, rfl, rfl, UInt64.le_refl _⟩

theorem Rises.refl_option (buffer : Option KeyBuffer) : Option.Rel Rises buffer buffer := by
  cases buffer with
  | none => exact .none
  | some b => exact .some (.refl b)

theorem Rises.above_floor {b b' : KeyBuffer} (hr : b.Rises b') (h : b.minimum < b.current) :
    b'.minimum < b'.current := by
  rw [hr.minimum]
  exact UInt64.lt_of_lt_of_le h hr.current

theorem Rises.meets {b b' : KeyBuffer} (hr : b.Rises b') {bound bound' : Bytes}
    (hbound : bound' ≤ bound) (h : bound ≤ b.current) : bound' ≤ b'.current :=
  UInt64.le_trans hbound (UInt64.le_trans h hr.current)

theorem rises_credit (b : KeyBuffer) (amount : Bytes) : b.Rises (b.credit amount).1 := by
  refine ⟨rfl, rfl, rfl, ?_⟩
  have hfull := UInt64.le_iff_toNat_le.1 b.current_le_maximum
  rw [UInt64.le_iff_toNat_le, toNat_credit]
  omega

theorem rises_of_debit {b b' : KeyBuffer} {amount : Bytes} {crossing : Option Crossing}
    (h : b.debit amount = .ok (b', crossing)) : b'.Rises b := by
  obtain ⟨hle, hminimum, hthreshold, hmaximum, hcurrent, -⟩ := debit_eq_ok_iff.1 h
  refine ⟨hminimum.symm, hthreshold.symm, hmaximum.symm, ?_⟩
  have hroom := UInt64.le_iff_toNat_le.1 hle
  rw [toNat_available] at hroom
  have hfits : amount ≤ b.current := UInt64.le_iff_toNat_le.2 (by omega)
  rw [hcurrent, UInt64.le_iff_toNat_le, UInt64.toNat_sub_of_le _ _ hfits]
  omega

end KeyBuffer

section Bounds

variable {buffer buffer' : Option KeyBuffer} {least least' : Bytes}

/-- The bounds of a grade are met at a higher level, and for a class that needs less. -/
theorem Grade.Reached.mono {g : Grade} (hrises : Option.Rel KeyBuffer.Rises buffer buffer')
    (hleast : least' ≤ least) (h : Reached buffer least g) : Reached buffer' least' g := by
  cases hrises with
  | none => cases g <;> exact h
  | some hr =>
    cases g with
    | unsecured => trivial
    | depleted => trivial
    | insufficient => exact hr.above_floor h
    | low => exact ⟨hr.above_floor h.1, hr.meets hleast h.2⟩
    | healthy =>
      exact ⟨hr.above_floor h.1, hr.meets hleast h.2.1,
        hr.meets (UInt64.le_of_eq hr.threshold) h.2.2⟩

theorem Grade.ofBuffer_mono (hrises : Option.Rel KeyBuffer.Rises buffer buffer')
    (hleast : least' ≤ least) : ofBuffer buffer least ≤ ofBuffer buffer' least' :=
  le_ofBuffer_iff.2 ((le_ofBuffer_iff.1 (Nat.le_refl _)).mono hrises hleast)

/-- A buffer supports secured traffic where it meets the bounds of the second best grade. -/
theorem viable_secured_iff_reached :
    viable .secured buffer least = true ↔ Grade.Reached buffer least .low := by
  cases buffer with
  | none => simp [viable, Grade.Reached]
  | some b =>
    simp only [viable, Grade.Reached, Bool.and_eq_true, decide_eq_true_eq, b.available_pos_iff]
    exact and_comm

theorem viable_secured_iff : viable .secured buffer least = true ↔
    Grade.ofBuffer buffer least = .low ∨ Grade.ofBuffer buffer least = .healthy := by
  rw [viable_secured_iff_reached, ← Grade.le_ofBuffer_iff]
  cases Grade.ofBuffer buffer least <;> decide

theorem viable_mono (c : TrafficClass) (hrises : Option.Rel KeyBuffer.Rises buffer buffer')
    (hleast : least' ≤ least) (h : viable c buffer least = true) : viable c buffer' least' = true := by
  cases c with
  | secured =>
    exact viable_secured_iff_reached.2 ((viable_secured_iff_reached.1 h).mono hrises hleast)
  | bestEffort =>
    cases hrises with
    | none =>
      simp only [viable, decide_eq_true_eq] at h ⊢
      exact UInt64.le_zero_iff.1 (h ▸ hleast)
    | some hr =>
      simp only [viable, decide_eq_true_eq] at h ⊢
      exact hr.meets hleast h

end Bounds

/-! ## Checks -/

/-- What a check finds is no worse than what another one finds. -/
structure Appraisal.Covers (a b : Appraisal) : Prop where
  grade : b.grade ≤ a.grade
  viable : b.viable = true → a.viable = true

theorem Appraisal.Covers.refl (a : Appraisal) : a.Covers a := ⟨Nat.le_refl _, id⟩

/-- A check finds no less at a higher level, and no less for a class that needs less. -/
theorem Appraisal.covers_evaluate {buffer buffer' : Option KeyBuffer} {least least' : Bytes}
    (hrises : Option.Rel KeyBuffer.Rises buffer buffer') (hleast : least' ≤ least) (route : Route)
    (c : TrafficClass) (now now' : Millis) (epoch epoch' : Nat) :
    (evaluate route c buffer' least' now' epoch').Covers
      (evaluate route c buffer least now epoch) :=
  ⟨Grade.ofBuffer_mono hrises hleast, viable_mono c hrises hleast⟩

section Buffers

variable {buffers buffers' : LinkKey → Option KeyBuffer} {key : LinkKey} {b b' : KeyBuffer}

/-- Where the level of one buffer has risen, no buffer has a lower level than before. -/
theorem KeyBuffer.rel_raised (hb : buffers key = some b) (hrises : b.Rises b')
    (hchanged : ∀ j, buffers' j = if j = key then some b' else buffers j) (j : LinkKey) :
    Option.Rel Rises (buffers j) (buffers' j) := by
  rw [hchanged]
  split
  · rename_i hj
    rw [hj, hb]
    exact .some hrises
  · exact Rises.refl_option _

/-- Where the level of one buffer has fallen, no buffer had a lower level than now. -/
theorem KeyBuffer.rel_lowered (hb : buffers key = some b) (hfalls : b'.Rises b)
    (hchanged : ∀ j, buffers' j = if j = key then some b' else buffers j) (j : LinkKey) :
    Option.Rel Rises (buffers' j) (buffers j) := by
  rw [hchanged]
  split
  · rename_i hj
    rw [hj, hb]
    exact .some hfalls
  · exact Rises.refl_option _

end Buffers

namespace KeyAware

variable (k : KeyAware) (route : Route) (c : TrafficClass) (links : Links) (now : Millis)
  {key : LinkKey} {l l' : Link}

/-- A credit leaves no route worse. -/
theorem covers_evaluate_credit (hl : links.find? key = some l) (amount : Bytes)
    (hl' : l'.buffer = (l.buffer.credit amount).1) :
    (k.evaluate route c (links.insert key l') now).Covers (k.evaluate route c links now) := by
  have hb : links.buffer? key = some l.buffer := congrArg (Option.map Link.buffer) hl
  have hrises : l.buffer.Rises l'.buffer := hl' ▸ l.buffer.rises_credit amount
  exact Appraisal.covers_evaluate
    (KeyBuffer.rel_raised hb hrises (fun j => links.buffer?_insert key j l') _) (UInt64.le_refl _) ..

/-- A debit that succeeds leaves no route better. -/
theorem covers_evaluate_debit (hl : links.find? key = some l) {amount : Bytes}
    {crossing : Option Crossing} (hdebit : l.buffer.debit amount = .ok (l'.buffer, crossing)) :
    (k.evaluate route c links now).Covers (k.evaluate route c (links.insert key l') now) := by
  have hb : links.buffer? key = some l.buffer := congrArg (Option.map Link.buffer) hl
  have hfalls : l'.buffer.Rises l.buffer := KeyBuffer.rises_of_debit hdebit
  exact Appraisal.covers_evaluate
    (KeyBuffer.rel_lowered hb hfalls (fun j => links.buffer?_insert key j l') _) (UInt64.le_refl _) ..

end KeyAware

/-- Secured traffic may take a route exactly where its grade is one of the two best. Neither grade nor
viability falls where the level rises or the class needs less, so that a credit spoils no route and a
debit mends none. -/
theorem KeyAware.evaluate_order (route : Route) (now : Millis) (epoch : Nat) :
    (∀ buffer least,
      (Appraisal.evaluate route .secured buffer least now epoch).viable = true ↔
        (Appraisal.evaluate route .secured buffer least now epoch).grade = .low ∨
          (Appraisal.evaluate route .secured buffer least now epoch).grade = .healthy) ∧
    (∀ (c : TrafficClass) (least : Bytes) (b b' : KeyBuffer), b.Rises b' →
      (Appraisal.evaluate route c (some b') least now epoch).Covers
        (Appraisal.evaluate route c (some b) least now epoch)) ∧
    (∀ (c : TrafficClass) (buffer : Option KeyBuffer) (least least' : Bytes), least ≤ least' →
      (Appraisal.evaluate route c buffer least now epoch).Covers
        (Appraisal.evaluate route c buffer least' now epoch)) ∧
    ∀ (k : KeyAware) (c : TrafficClass) (links : Links) (key : LinkKey) (l l' : Link)
      (amount : Bytes), links.find? key = some l →
      (l'.buffer = (l.buffer.credit amount).1 →
        (k.evaluate route c (links.insert key l') now).Covers (k.evaluate route c links now)) ∧
      ((∃ crossing, l.buffer.debit amount = .ok (l'.buffer, crossing)) →
        (k.evaluate route c links now).Covers (k.evaluate route c (links.insert key l') now)) := by
  refine ⟨fun _ _ => viable_secured_iff, fun c least b b' hrises => ?_,
    fun c buffer least least' hle => ?_, fun k c links key l l' amount hl => ⟨fun hcredit => ?_, ?_⟩⟩
  · exact Appraisal.covers_evaluate (.some hrises) (UInt64.le_refl _) ..
  · exact Appraisal.covers_evaluate (KeyBuffer.Rises.refl_option buffer) hle ..
  · exact k.covers_evaluate_credit route c links now hl amount hcredit
  · rintro ⟨crossing, hdebit⟩
    exact k.covers_evaluate_debit route c links now hl hdebit

/-- A buffer below what the class needs and above its floor, before and after a credit that lifts it
over the threshold. -/
theorem KeyAware.evaluate_order_refilled :
    let low : KeyBuffer := ⟨10, 40, 100, 30, by decide, by decide, by decide, by decide⟩
    let before := Appraisal.evaluate ⟨⟨1⟩, ⟨1⟩⟩ .secured (some low) 35 0 0
    let after := Appraisal.evaluate ⟨⟨1⟩, ⟨1⟩⟩ .secured (some (low.credit 25).1) 35 0 0
    before.grade = .insufficient ∧ after.grade = .healthy ∧ after.Covers before :=
  ⟨by decide +kernel, by decide +kernel,
    (evaluate_order ⟨⟨1⟩, ⟨1⟩⟩ 0 0).2.1 .secured 35 _ _ ⟨rfl, rfl, rfl, by decide +kernel⟩⟩

/-! ## Nodes -/

namespace Outlook

/-- What a check of a route would find. -/
def evaluate (o : Outlook) (route : Route) (c : TrafficClass) (now : Millis) : Appraisal :=
  .evaluate route c (o.buffers (route.link o.routing.home)) (o.routing.least c) now o.routing.epoch

variable (o : Outlook) (route : Route) (c : TrafficClass) (now : Millis) {key : LinkKey}
  {b b' : KeyBuffer}

theorem buffers_relevel (j : LinkKey) :
    (o.relevel key b b').buffers j = if j = key then some b' else o.buffers j := by
  unfold relevel
  split <;> exact Function.update_apply ..

/-- Another level of a buffer bears on a check through the buffers only. -/
theorem evaluate_relevel : (o.relevel key b b').evaluate route c now =
    .evaluate route c ((o.relevel key b b').buffers (route.link o.routing.home))
      (o.routing.least c) now o.routing.epoch := by
  unfold evaluate relevel
  split <;> cases c <;> rfl

theorem covers_raised (hb : o.buffers key = some b) (hrises : b.Rises b') :
    ((o.relevel key b b').evaluate route c now).Covers (o.evaluate route c now) := by
  rw [evaluate_relevel]
  exact Appraisal.covers_evaluate (KeyBuffer.rel_raised hb hrises o.buffers_relevel _)
    (UInt64.le_refl _) ..

theorem covers_lowered (hb : o.buffers key = some b) (hfalls : b'.Rises b) :
    (o.evaluate route c now).Covers ((o.relevel key b b').evaluate route c now) := by
  rw [evaluate_relevel]
  exact Appraisal.covers_evaluate (KeyBuffer.rel_lowered hb hfalls o.buffers_relevel _)
    (UInt64.le_refl _) ..

end Outlook

namespace Node

variable (n : Node) (route : Route) (c : TrafficClass) (later : Millis)

/-- A check of a route goes by the outlook. -/
theorem evaluate_outlook :
    n.routing.evaluate route c n.links later = n.outlook.evaluate route c later := rfl

/-- No delivery of key material makes a route worse, whether or not it is taken in. -/
theorem covers_chargeDelivered (peer : NodeId) (bytes : Bytes) (now : Millis) :
    let m := (n.chargeDelivered peer bytes now).2
    (m.routing.evaluate route c m.links later).Covers
      (n.routing.evaluate route c n.links later) := by
  simp only [evaluate_outlook]
  rcases n.outlook_chargeDelivered peer bytes now with hsame | ⟨b, hb, hcredit⟩
  · rw [hsame]
    exact .refl _
  · rw [hcredit]
    exact n.outlook.covers_raised route c later hb (b.rises_credit bytes)

/-- No secured packet makes a route better, whatever becomes of it. -/
theorem covers_sendSecured (packet : Packet) (maxDelay : Option Millis) (now : Millis) :
    let m := (n.sendSecured packet maxDelay now).2
    (n.routing.evaluate route c n.links later).Covers
      (m.routing.evaluate route c m.links later) := by
  simp only [evaluate_outlook]
  generalize hsent : (n.sendSecured packet maxDelay now).2.outlook = o
  have hsends := hsent ▸ n.outlook_sendSecured packet maxDelay now
  have hrecord : ∀ (p : Protocols) (cs : List Candidate) (unreachable : Table NodeId Unit),
      Outlook.evaluate { n.outlook with
        protocols := p
        routing := { n.routing.checkAll .secured n.links.buffer? now cs with unreachable } }
        route c later = n.outlook.evaluate route c later := by
    intro p cs unreachable
    cases c <;> rfl
  cases hsends with
  | refused => exact .refl _
  | unrouted => exact .refl _
  | @checked cs p hrun hcs hne unreachable =>
    have hsame := hrecord p cs unreachable
    exact hsame ▸ .refl _
  | @paid cs p hrun hcs hne unreachable key b b' amount crossing hb hd =>
    rw [← hrecord p cs unreachable]
    exact Outlook.covers_lowered _ route c later hb (KeyBuffer.rises_of_debit hd)

end Node

end KeyReserve
