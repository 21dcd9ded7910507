import KeyReserve.Proofs.ChargingCourse
import KeyReserve.Proofs.RecordRuns
import Mathlib.Algebra.Order.Floor.Div

/-!
# Rounds of a charging session

A session asks for its target round by round. Where whoever moves the bytes delivers no more than
the round that was asked for, nothing is cut at the capacity of the buffer and nothing is delivered
beyond the target, whatever traffic takes out between the rounds. Where each round is delivered in
full, the number of rounds is fixed when the session opens.

## Main definitions

* `Charger.Round`, `Charger.Round.total`: what was delivered in a round, and in some rounds;
* `Charger.Rounds`: what happens on a link while bytes are delivered to its session in rounds;
* `Charger.Stage`: a session that has got some bytes, or has ended with all of them;
* `Charger.Filling`: what holds of a session wherever its rounds have led to.

## Main results

* `Charger.Stage.delivery`: the delivery of no more than a round fits, and ends the session exactly
  where it brings the target;
* `Charger.Rounds.total_eq`: what full rounds have delivered;
* `Charger.Rounds.reach_target`: a session ends with its target, and after how many full rounds.
-/

namespace KeyReserve

/-- What fits below the capacity is put into the buffer whole. -/
theorem KeyBuffer.applied_of_le_headroom {b : KeyBuffer} {amount : Bytes}
    (h : amount.toNat ≤ b.headroom.toNat) : (b.credit amount).2.applied = amount := by
  refine UInt64.toNat_inj.1 ?_
  show (b.fitting amount).toNat = _
  rw [toNat_fitting]
  omega

namespace Charger

/-- What was delivered in a round, and what became of it. -/
structure Round where
  bytes : Bytes
  delivery : Delivery
  deriving DecidableEq

/-- The bytes that were delivered in some rounds. -/
def Round.total (rs : List Round) : Nat := (rs.map fun r => r.bytes.toNat).sum

theorem Round.total_concat (rs : List Round) (r : Round) :
    total (rs ++ [r]) = total rs + r.bytes.toNat := by
  simp [total]

/-- What happens on a link that is being charged. Deliveries come in rounds, each of a size that
suits the round that was asked for. Between them traffic takes bytes out, the timer of the next round
is set and falls due, and the charger serves other links. -/
inductive Rounds (suits : Bytes → Bytes → Prop) (link : LinkKey) (c₁ : Charger) (b₁ : KeyBuffer) :
    Charger → KeyBuffer → List Round → Prop where
  | start : Rounds suits link c₁ b₁ c₁ b₁ []
  | delivered {c c' : Charger} {b b' : KeyBuffer} {rs : List Round} {asked bytes : Bytes}
      {d : Delivery} (hr : Rounds suits link c₁ b₁ c b rs) (hasked : c.nextRound link = some asked)
      (hsuits : suits bytes asked) (h : c.receive link b bytes = .ok (c', b', d)) :
      Rounds suits link c₁ b₁ c' b' (rs ++ [⟨bytes, d⟩])
  | debited {c : Charger} {b b' : KeyBuffer} {rs : List Round} {amount : Bytes}
      {crossing : Option Crossing} (hr : Rounds suits link c₁ b₁ c b rs)
      (h : b.debit amount = .ok (b', crossing)) : Rounds suits link c₁ b₁ c b' rs
  | roundSet {c c' : Charger} {b : KeyBuffer} {rs : List Round} {timer : TimerId}
      {replaced : Option TimerId} (hr : Rounds suits link c₁ b₁ c b rs)
      (h : c.setFollowUp link timer = .ok (c', replaced)) : Rounds suits link c₁ b₁ c' b rs
  | roundDue {c : Charger} {b : KeyBuffer} {rs : List Round} (hr : Rounds suits link c₁ b₁ c b rs) :
      Rounds suits link c₁ b₁ (c.takeFollowUp link).1 b rs
  | elsewhere {c c' : Charger} {b : KeyBuffer} {rs : List Round}
      (hr : Rounds suits link c₁ b₁ c b rs) (h : c'.session? link = c.session? link)
      (hsize : c'.sendSize = c.sendSize) : Rounds suits link c₁ b₁ c' b rs

/-- A session that has got some bytes, all of which have fitted into the buffer, or one that has
ended with its target. -/
inductive Stage (c₀ : Charger) (link : LinkKey) (b₀ : KeyBuffer) (c : Charger) (b : KeyBuffer)
    (inflow : Nat) : Prop where
  | running {s : Session} {outflow : Nat} (hs : c.session? link = some s)
      (hstanding : Standing c₀ link b₀ c b inflow outflow) (hkept : s.applied = s.delivered)
  | ended (hs : c.session? link = none) (hall : inflow = (c₀.targetFor b₀).toNat)

/-- What a delivery does to a session that has got some bytes before. -/
structure Fits (target inflow : Nat) (r : Round) : Prop where
  applied : r.delivery.applied = r.bytes
  within : inflow + r.bytes.toNat ≤ target
  ends : (∃ s, r.delivery.progress = .completed s) ↔ inflow + r.bytes.toNat = target
  record : ∀ s, r.delivery.progress = .completed s →
    s.delivered.toNat = target ∧ s.applied.toNat = target

/-! ## A single round -/

section

variable {c₀ c c' : Charger} {link : LinkKey} {b₀ b b' : KeyBuffer} {inflow outflow : Nat}
  {asked bytes : Bytes} {d : Delivery}

/-- What remains to be delivered fits into the buffer. -/
theorem Standing.room (h : Standing c₀ link b₀ c b inflow outflow) :
    (c₀.targetFor b₀).toNat ≤ inflow + b.headroom.toNat := by
  have htarget := c₀.targetFor_le_headroom b₀
  have hlevel := h.level
  have hfirst := UInt64.le_iff_toNat_le.1 b₀.current_le_maximum
  rw [KeyBuffer.toNat_headroom] at htarget ⊢
  rw [h.maximum]
  omega

/-- The next round is what remains, but at most the size of a round. -/
theorem Standing.nextRound (h : Standing c₀ link b₀ c b inflow outflow) :
    ∃ asked, c.nextRound link = some asked ∧
      asked.toNat = min ((c₀.targetFor b₀).toNat - inflow) c.sendSize.toNat := by
  obtain ⟨s, hs, htarget, hdelivered⟩ := h.session
  refine ⟨s.roundSize c.sendSize, ?_, ?_⟩
  · show (c.session? link).map _ = _
    rw [hs, Option.map_some]
  · rw [Session.toNat_roundSize, Session.toNat_remaining, htarget, hdelivered]

/-- A delivery of no more than the round that was asked for fits into the target and into the
buffer. -/
theorem Standing.fits (h : Standing c₀ link b₀ c b inflow outflow)
    (hasked : c.nextRound link = some asked) (hle : bytes ≤ asked) :
    inflow + bytes.toNat ≤ (c₀.targetFor b₀).toNat ∧ (b.credit bytes).2.applied = bytes := by
  obtain ⟨asked', hasked', hsize⟩ := h.nextRound
  cases hasked.symm.trans hasked'
  have hshort := h.short
  have hroom := h.room
  have hbytes := UInt64.le_iff_toNat_le.1 hle
  exact ⟨by omega, KeyBuffer.applied_of_le_headroom (by omega)⟩

/-- A session that asks for a round has not ended. -/
theorem Stage.of_nextRound (h : Stage c₀ link b₀ c b inflow)
    (hasked : c.nextRound link = some asked) :
    ∃ s outflow, c.session? link = some s ∧ Standing c₀ link b₀ c b inflow outflow ∧
      s.applied = s.delivered := by
  cases h with
  | running hs hstanding hkept => exact ⟨_, _, hs, hstanding, hkept⟩
  | ended hs =>
    rw [nextRound, show c.sessions.find? link = none from hs] at hasked
    cases hasked

/-- Such a delivery ends the session where it brings the target, and else the session goes on. -/
theorem Stage.delivery (h : Stage c₀ link b₀ c b inflow) (hasked : c.nextRound link = some asked)
    (hle : bytes ≤ asked) (hr : c.receive link b bytes = .ok (c', b', d)) :
    Stage c₀ link b₀ c' b' (inflow + bytes.toNat) ∧
      Fits (c₀.targetFor b₀).toNat inflow ⟨bytes, d⟩ := by
  obtain ⟨s, outflow, hs, hstanding, hkept⟩ := h.of_nextRound hasked
  obtain ⟨hwithin, hfits⟩ := hstanding.fits hasked hle
  obtain ⟨s₁, s', hs₁, hs', happlied, hprogress⟩ := receive_progress hr
  cases hs.symm.trans hs₁
  rw [hfits] at hs' happlied
  have hkept' : s'.applied = s'.delivered := by
    rw [hs']
    show s.applied.addSat bytes = s.delivered.addSat bytes
    rw [hkept]
  obtain ⟨c₂, d₂, hr₂, hend⟩ := hstanding.delivery bytes
  cases hr.symm.trans hr₂
  split at hend
  · rename_i hreached
    obtain ⟨gone, hgone⟩ := hend
    have hall : inflow + bytes.toNat = (c₀.targetFor b₀).toNat := by omega
    have hdelivered : s'.delivered.toNat = (c₀.targetFor b₀).toNat := by
      have hrange := (c₀.targetFor b₀).toNat_lt
      rw [hs']
      show (s.delivered.addSat bytes).toNat = _
      rw [UInt64.toNat_addSat, (hstanding.of_session hs).2, hall, UInt64.size]
      omega
    rw [hgone] at hprogress
    obtain ⟨rfl, rfl⟩ := hprogress
    refine ⟨.ended ?_ hall, happlied, hwithin, ⟨fun _ => hall, fun _ => ⟨_, hgone⟩⟩, ?_⟩
    · rw [session?, Table.find?_erase, if_pos rfl]
    · intro t ht
      cases hgone.symm.trans ht
      exact ⟨hdelivered, hkept' ▸ hdelivered⟩
  · rename_i hshort
    obtain ⟨⟨next, hnext⟩, hstanding'⟩ := hend
    rw [hnext] at hprogress
    obtain ⟨-, -, rfl⟩ := hprogress
    refine ⟨.running (session?_insert c link s') hstanding' hkept', happlied, hwithin, ?_, ?_⟩
    · constructor
      · rintro ⟨t, ht⟩
        cases hnext.symm.trans ht
      · intro hall
        exact absurd hall.ge hshort
    · intro t ht
      cases hnext.symm.trans ht

/-- A session that has just been opened has got nothing yet. -/
theorem Stage.opened {now : Millis} {o : SessionOpened}
    (h : c₀.openIfLow link b₀ now = (c, some o)) : Stage c₀ link b₀ c b₀ 0 := by
  obtain ⟨-, hs⟩ := openIfLow_eq_some h
  exact .running hs (.opened h) rfl

theorem Stage.debited {amount : Bytes} {crossing : Option Crossing}
    (h : Stage c₀ link b₀ c b inflow) (hb : b.debit amount = .ok (b', crossing)) :
    Stage c₀ link b₀ c b' inflow := by
  cases h with
  | running hs hstanding hkept => exact .running hs (hstanding.debited hb) hkept
  | ended hs hall => exact .ended hs hall

theorem Stage.of_session_eq (h : Stage c₀ link b₀ c b inflow)
    (hs' : c'.session? link = c.session? link) : Stage c₀ link b₀ c' b inflow := by
  cases h with
  | running hs hstanding hkept =>
    exact .running (hs'.trans hs) (hstanding.of_session_eq hs') hkept
  | ended hs hall => exact .ended (hs'.trans hs) hall

/-- The timer of the next round has no part in what a session has got. -/
theorem Stage.retimed {followUp : Option TimerId} (h : Stage c₀ link b₀ c b inflow)
    (hs' : c'.session? link = (c.session? link).map ({ · with followUp })) :
    Stage c₀ link b₀ c' b inflow := by
  cases h with
  | running hs hstanding hkept =>
    have hstanding' := hstanding.retimed hs'
    rw [hs, Option.map_some] at hs'
    exact .running hs' hstanding' hkept
  | ended hs hall =>
    rw [hs, Option.map_none] at hs'
    exact .ended hs' hall

end

/-! ## Several rounds -/

namespace Rounds

variable {suits : Bytes → Bytes → Prop} {link : LinkKey} {c₀ c₁ c : Charger}
  {b₀ b₁ b : KeyBuffer} {rs : List Round}

theorem mono {suits' : Bytes → Bytes → Prop} (hsuits : ∀ x y, suits x y → suits' x y)
    (h : Rounds suits link c₁ b₁ c b rs) : Rounds suits' link c₁ b₁ c b rs := by
  induction h with
  | start => exact .start
  | delivered _ hasked hsuit hr ih => exact ih.delivered hasked (hsuits _ _ hsuit) hr
  | debited _ hb ih => exact ih.debited hb
  | roundSet _ hset ih => exact ih.roundSet hset
  | roundDue _ ih => exact ih.roundDue
  | elsewhere _ hs hsize ih => exact ih.elsewhere hs hsize

theorem sendSize_eq (h : Rounds suits link c₁ b₁ c b rs) : c.sendSize = c₁.sendSize := by
  induction h with
  | start => rfl
  | delivered _ _ _ hr ih => exact (receive_settings hr).1.trans ih
  | debited _ _ ih => exact ih
  | roundSet _ hset ih => exact (setFollowUp_settings hset).1.trans ih
  | roundDue _ ih => exact (takeFollowUp_settings _ _).1.trans ih
  | elsewhere _ _ hsize ih => exact hsize.trans ih

/-- Every round was delivered after those before it. -/
theorem exists_delivery (h : Rounds suits link c₁ b₁ c b rs) {before after : List Round} {r : Round}
    (hrs : rs = before ++ r :: after) :
    ∃ c b c' b' asked, Rounds suits link c₁ b₁ c b before ∧ c.nextRound link = some asked ∧
      suits r.bytes asked ∧ c.receive link b r.bytes = .ok (c', b', r.delivery) := by
  induction h generalizing after with
  | start => simp at hrs
  | @delivered c c' b b' rs asked bytes d hrounds hasked hsuit hr ih =>
    rcases List.eq_nil_or_concat after with rfl | ⟨after, last, rfl⟩
    · obtain ⟨rfl, hlast⟩ := List.append_inj' hrs rfl
      cases hlast
      exact ⟨c, b, c', b', asked, hrounds, hasked, hsuit, hr⟩
    · rw [List.concat_eq_append, ← List.cons_append, ← List.append_assoc] at hrs
      exact ih (List.append_inj' hrs rfl).1
  | debited _ _ ih => exact ih hrs
  | roundSet _ _ ih => exact ih hrs
  | roundDue _ ih => exact ih hrs
  | elsewhere _ _ _ ih => exact ih hrs

/-- Where no delivery is more than the round that was asked for, the session has got all that was
delivered. -/
theorem stage (h₁ : Stage c₀ link b₀ c₁ b₁ 0) (h : Rounds (· ≤ ·) link c₁ b₁ c b rs) :
    Stage c₀ link b₀ c b (Round.total rs) := by
  induction h with
  | start => exact h₁
  | delivered _ hasked hle hr ih =>
    rw [Round.total_concat]
    exact (ih.delivery hasked hle hr).1
  | debited _ hb ih => exact ih.debited hb
  | roundSet _ hset ih => exact ih.retimed (session?_setFollowUp hset)
  | roundDue _ ih => exact ih.retimed (session?_takeFollowUp _ _)
  | elsewhere _ hs _ ih => exact ih.of_session_eq hs

/-- Full rounds deliver as much as there are of them, but at most the target. -/
theorem total_eq (h₁ : Stage c₀ link b₀ c₁ b₁ 0) (h : Rounds (· = ·) link c₁ b₁ c b rs) :
    Round.total rs = min (rs.length * c₁.sendSize.toNat) (c₀.targetFor b₀).toNat := by
  induction h with
  | start => simp [Round.total]
  | @delivered c c' b b' rs asked bytes d hrounds hasked hsuit hr ih =>
    subst hsuit
    have hstage := stage h₁ (hrounds.mono fun _ _ => UInt64.le_of_eq)
    obtain ⟨_, _, _, hstanding, _⟩ := hstage.of_nextRound hasked
    obtain ⟨asked', hasked', hsize⟩ := hstanding.nextRound
    cases hasked.symm.trans hasked'
    have hshort := hstanding.short
    rw [hrounds.sendSize_eq] at hsize
    rw [Round.total_concat, List.length_append, List.length_singleton, Nat.add_mul, Nat.one_mul]
    show Round.total rs + bytes.toNat = _
    omega
  | debited _ _ ih => exact ih
  | roundSet _ _ ih => exact ih
  | roundDue _ ih => exact ih
  | elsewhere _ _ _ ih => exact ih

end Rounds

/-! ## The whole session -/

/-- Where the rounds of a session with a target have led to. -/
structure Filling (target : Nat) (link : LinkKey) (c : Charger) (b : KeyBuffer) (rs : List Round) :
    Prop where
  within : Round.total rs ≤ target
  /-- Nothing was cut at the capacity. -/
  applied : ∀ r ∈ rs, r.delivery.applied = r.bytes
  ends : ∀ before r after, rs = before ++ r :: after →
    ((∃ s, r.delivery.progress = .completed s) ↔ Round.total before + r.bytes.toNat = target)
  record : ∀ r ∈ rs, ∀ s, r.delivery.progress = .completed s →
    s.delivered.toNat = target ∧ s.applied.toNat = target
  /-- While the session is open it counts all that was delivered, and asks for more. -/
  stage : (c.session? link = none ∧ Round.total rs = target) ∨
    ∃ s asked, c.session? link = some s ∧ s.delivered.toNat = Round.total rs ∧
      s.applied.toNat = Round.total rs ∧ Round.total rs < target ∧
      c.nextRound link = some asked ∧ 0 < asked ∧
      ∀ bytes, ∃ result, c.receive link b bytes = .ok result

theorem target_openIfLow {c₀ c : Charger} {link : LinkKey} {b : KeyBuffer} {now : Millis}
    {o : SessionOpened} (h : c₀.openIfLow link b now = (c, some o)) :
    o.target = c₀.targetFor b := by
  unfold openIfLow at h
  split at h
  · cases h
  · cases h
    rfl

namespace Rounds

variable {link : LinkKey} {c₀ c₁ c : Charger} {b₀ b : KeyBuffer} {rs : List Round}

theorem fits (h₁ : Stage c₀ link b₀ c₁ b₀ 0) (h : Rounds (· ≤ ·) link c₁ b₀ c b rs)
    {before after : List Round} {r : Round} (hrs : rs = before ++ r :: after) :
    Fits (c₀.targetFor b₀).toNat (Round.total before) r := by
  obtain ⟨_, _, _, _, _, hbefore, hasked, hle, hr⟩ := h.exists_delivery hrs
  exact ((stage h₁ hbefore).delivery hasked hle hr).2

theorem filling (h₁ : Stage c₀ link b₀ c₁ b₀ 0) (hsize : 0 < c₁.sendSize)
    (h : Rounds (· ≤ ·) link c₁ b₀ c b rs) :
    Filling (c₀.targetFor b₀).toNat link c b rs := by
  have hfits : ∀ r ∈ rs, ∃ inflow, Fits (c₀.targetFor b₀).toNat inflow r := by
    intro r hr
    obtain ⟨before, after, hrs⟩ := List.append_of_mem hr
    exact ⟨_, fits h₁ h hrs⟩
  refine ⟨?_, ?_, fun _ _ _ hrs => (fits h₁ h hrs).ends, ?_, ?_⟩
  · cases stage h₁ h with
    | running _ hstanding _ => exact hstanding.short.le
    | ended _ hall => exact hall.le
  · intro r hr
    obtain ⟨_, hfit⟩ := hfits r hr
    exact hfit.applied
  · intro r hr
    obtain ⟨_, hfit⟩ := hfits r hr
    exact hfit.record
  · cases stage h₁ h with
    | running hs hstanding hkept =>
      obtain ⟨asked, hasked, hround⟩ := hstanding.nextRound
      have hdelivered := (hstanding.of_session hs).2
      have hshort := hstanding.short
      rw [h.sendSize_eq] at hround
      rw [UInt64.lt_iff_toNat_lt, UInt64.toNat_zero] at hsize
      refine .inr ⟨_, asked, hs, hdelivered, hkept ▸ hdelivered, hshort, hasked, ?_, ?_⟩
      · rw [UInt64.lt_iff_toNat_lt, UInt64.toNat_zero]
        omega
      · intro bytes
        obtain ⟨_, _, hr, -⟩ := hstanding.delivery bytes
        exact ⟨_, hr⟩
    | ended hs hall => exact .inl ⟨hs, hall⟩

/-- As long as a round is asked for, fewer have been delivered than it takes. -/
theorem length_lt_of_nextRound (h₁ : Stage c₀ link b₀ c₁ b₀ 0) (hsize : 0 < c₁.sendSize)
    (h : Rounds (· = ·) link c₁ b₀ c b rs) {asked : Bytes} (hasked : c.nextRound link = some asked) :
    rs.length < (c₀.targetFor b₀).toNat ⌈/⌉ c₁.sendSize.toNat := by
  have hstage := stage h₁ (h.mono fun _ _ => UInt64.le_of_eq)
  obtain ⟨_, _, _, hstanding, _⟩ := hstage.of_nextRound hasked
  have hshort := hstanding.short
  rw [UInt64.lt_iff_toNat_lt, UInt64.toNat_zero] at hsize
  rw [total_eq h₁ h] at hshort
  rw [← not_le, ceilDiv_le_iff_le_mul hsize, Nat.mul_comm]
  omega

/-- Full rounds have delivered the target once there are as many as it takes. -/
theorem total_eq_target_iff (h₁ : Stage c₀ link b₀ c₁ b₀ 0) (hsize : 0 < c₁.sendSize)
    (h : Rounds (· = ·) link c₁ b₀ c b rs) :
    Round.total rs = (c₀.targetFor b₀).toNat ↔
      (c₀.targetFor b₀).toNat ⌈/⌉ c₁.sendSize.toNat ≤ rs.length := by
  rw [UInt64.lt_iff_toNat_lt, UInt64.toNat_zero] at hsize
  rw [total_eq h₁ h, ceilDiv_le_iff_le_mul hsize, Nat.mul_comm]
  omega

theorem completed_iff_length (h₁ : Stage c₀ link b₀ c₁ b₀ 0) (hsize : 0 < c₁.sendSize)
    (h : Rounds (· = ·) link c₁ b₀ c b rs) {before after : List Round} {r : Round}
    (hrs : rs = before ++ r :: after) :
    (∃ s, r.delivery.progress = .completed s) ↔
      before.length + 1 = (c₀.targetFor b₀).toNat ⌈/⌉ c₁.sendSize.toNat := by
  obtain ⟨_, _, _, _, _, hbefore, hasked, hfull, hr⟩ := h.exists_delivery hrs
  have hlt := length_lt_of_nextRound h₁ hsize hbefore hasked
  have hreached := total_eq_target_iff h₁ hsize (hbefore.delivered hasked hfull hr)
  rw [Round.total_concat, List.length_append, List.length_singleton] at hreached
  rw [(fits h₁ (h.mono fun _ _ => UInt64.le_of_eq) hrs).ends, hreached]
  omega

theorem session?_eq_none_iff_length (h₁ : Stage c₀ link b₀ c₁ b₀ 0) (hsize : 0 < c₁.sendSize)
    (h : Rounds (· = ·) link c₁ b₀ c b rs) :
    c.session? link = none ↔
      rs.length = (c₀.targetFor b₀).toNat ⌈/⌉ c₁.sendSize.toNat := by
  have hreached := total_eq_target_iff h₁ hsize h
  have hstage := stage h₁ (h.mono fun _ _ => UInt64.le_of_eq)
  cases hstage with
  | running hs hstanding _ =>
    have hshort := hstanding.short
    rw [hs]
    refine ⟨fun hnone => ?_, fun hlength => ?_⟩
    · cases hnone
    · have := hreached.2 hlength.ge
      omega
  | ended hs hall =>
    refine ⟨fun _ => Nat.le_antisymm ?_ (hreached.1 hall), fun _ => hs⟩
    rcases List.eq_nil_or_concat rs with rfl | ⟨before, r, rfl⟩
    · exact Nat.zero_le _
    · obtain ⟨_, _, _, _, _, hbefore, hasked, -⟩ :=
        h.exists_delivery (List.concat_eq_append)
      rw [List.length_concat]
      exact length_lt_of_nextRound h₁ hsize hbefore hasked

/-- A session opens on a low buffer on which none is open. As long as no delivery is more than the
round that was asked for, nothing is cut at the capacity, the target is not exceeded, and the session
is over exactly when it has been delivered, whatever traffic takes out in the meantime; until then
the session asks for more and takes it. Where every round is delivered in full, the session ends with
the round whose number is the target over the size of a round, rounded up. -/
theorem reach_target (settings : ChargingSettings) {sessions : Table LinkKey Session}
    (nextSession : Nat) (hlow : b₀.isBelowThreshold = true) (hidle : sessions.find? link = none)
    (now : Millis) :
    ∃ c₁ o, openIfLow { ofSettings settings with sessions, nextSession } link b₀ now =
        (c₁, some o) ∧
      o.target.toNat = (if settings.totalAmount = 0 then b₀.headroom.toNat
        else min b₀.headroom.toNat settings.totalAmount.toNat) ∧
      (∀ c b rs, Rounds (· ≤ ·) link c₁ b₀ c b rs → Filling o.target.toNat link c b rs ∧
        (settings.totalAmount ≠ 0 → Round.total rs ≤ settings.totalAmount.toNat)) ∧
      ∀ c b rs, Rounds (· = ·) link c₁ b₀ c b rs →
        (c.session? link = none ↔
          rs.length = o.target.toNat ⌈/⌉ max 1 settings.sendSize.toNat) ∧
        ∀ before r after, rs = before ++ r :: after →
          ((∃ s, r.delivery.progress = .completed s) ↔
            before.length + 1 = o.target.toNat ⌈/⌉ max 1 settings.sendSize.toNat) := by
  obtain ⟨c₁, o, hopen⟩ : ∃ c₁ o, openIfLow { ofSettings settings with sessions, nextSession }
      link b₀ now = (c₁, some o) := by
    simp [openIfLow, hlow, Table.contains, hidle]
  have hstage : Stage { ofSettings settings with sessions, nextSession } link b₀ c₁ b₀ 0 :=
    .opened hopen
  have hsize : c₁.sendSize.toNat = max 1 settings.sendSize.toNat := by
    have hkept := (openIfLow_settings { ofSettings settings with sessions, nextSession } link b₀
      now).1
    rw [hopen] at hkept
    rw [hkept]
    exact toNat_sendSize_ofSettings settings
  have hpos : 0 < c₁.sendSize := by
    rw [UInt64.lt_iff_toNat_lt, hsize, UInt64.toNat_zero]
    omega
  have htarget := toNat_targetFor { ofSettings settings with sessions, nextSession } b₀
  rw [← target_openIfLow hopen] at htarget
  refine ⟨c₁, o, hopen, htarget, fun c b rs h => ?_, fun c b rs h => ?_⟩
  · have hfilling := filling hstage hpos h
    rw [← target_openIfLow hopen] at hfilling
    refine ⟨hfilling, fun hcapped => hfilling.within.trans ?_⟩
    rw [htarget, if_neg (show (ofSettings settings).totalAmount ≠ 0 from hcapped)]
    exact Nat.min_le_right _ _
  · rw [← hsize, target_openIfLow hopen]
    exact ⟨session?_eq_none_iff_length hstage hpos h,
      fun _ _ _ hrs => completed_iff_length hstage hpos h hrs⟩

/-- The 600 bytes that fit come in three rounds of at most 250, although traffic takes 100 bytes out
after the first. -/
theorem reach_target_low :
    KeyBuffer.low.isBelowThreshold = true ∧
      (Table.empty : Table LinkKey Session).find? (.join ⟨1⟩ ⟨2⟩) = none ∧
      ∃ c₁ o c b rs, openIfLow { ofSettings ⟨250, 10, 0⟩ with sessions := .empty, nextSession := 1 }
          (.join ⟨1⟩ ⟨2⟩) .low 0 = (c₁, some o) ∧
        Rounds (· = ·) (.join ⟨1⟩ ⟨2⟩) c₁ .low c b rs ∧ b.current = 900 ∧ rs.length = 3 ∧
        c.session? (.join ⟨1⟩ ⟨2⟩) = none ∧ Round.total rs = 600 := by
  have hlow : KeyBuffer.low.isBelowThreshold = true := by decide
  have hidle : (Table.empty : Table LinkKey Session).find? (.join ⟨1⟩ ⟨2⟩) = none := rfl
  refine ⟨hlow, hidle, ?_⟩
  obtain ⟨c₁, o, hopen, -, hfits, hfull⟩ := reach_target ⟨250, 10, 0⟩ 1 hlow hidle 0
  have hstart : Rounds (· = ·) (.join ⟨1⟩ ⟨2⟩) c₁ .low c₁ .low [] := .start
  cases hopen.symm.trans (rfl : openIfLow _ _ _ _ = _)
  have hfirst := @Rounds.delivered _ _ _ _ _ _ _ _ _ 250 250 _ hstart rfl rfl rfl
  have hsecond := @Rounds.delivered _ _ _ _ _ _ _ _ _ 250 250 _
    (hfirst.debited (rfl : KeyBuffer.debit _ 100 = _)) rfl rfl rfl
  have hrounds := @Rounds.delivered _ _ _ _ _ _ _ _ _ 100 100 _ hsecond rfl rfl rfl
  have hended := (hfull _ _ _ hrounds).1.2 (by decide)
  obtain ⟨hnone, htotal⟩ | ⟨s, -, hs, -⟩ :=
    (hfits _ _ _ (hrounds.mono fun _ _ => UInt64.le_of_eq)).1.stage
  · exact ⟨_, _, _, _, _, hopen, hrounds, rfl, rfl, hended, htotal⟩
  · cases hended.symm.trans hs

end Rounds

end Charger

end KeyReserve
