import KeyReserve.Proofs.RecordRuns
import KeyReserve.Proofs.SessionRecord

/-!
# The supply of a link

The supply of a link is its buffer with all that is done to refill it: the open session, what is
recorded of sessions, and what the transport has been asked for. In one call a link is served once
at most: it comes up, is debited, is looked after or has its round, and where a session opens the
transport is asked at once. A delivery is the one thing apart.

## Main definitions

* `Supply`: the buffer, the session, the record and the requests of one link;
* `Supply.Asked`, `Supply.Checked`: a request for a session, and what is done where a link is low;
* `Supply.Served`, `Supply.Fed`: what a call does to a link, and what a delivery does.

## Main results

* `Supply.Served.idle_before`, `Supply.Fed.idle_before`: how a low link is left without a session;
* `Supply.Covered.of_served`, `Supply.Covered.of_fed`: an open session has something left to
  deliver, and that fits;
* `Supply.Served.open_before`, `Supply.Fed.open_after`: a session that stays open, or is asked for;
* `Supply.Served.rounds`: for which sessions the transport is asked, and for how much.
-/

namespace KeyReserve

/-- The exchange is a request for key material for the link. -/
def Exchange.charges (key : LinkKey) (x : Exchange) : Bool :=
  match x.request with
  | .charge link _ _ => link = key
  | _ => false

/-- The session has just been opened on a buffer. -/
structure Session.Fresh (s : Session) (b : KeyBuffer) : Prop where
  delivered : s.delivered = 0
  applied : s.applied = 0
  followUp : s.followUp = none
  pos : 0 < s.target.toNat
  fits : s.target.toNat ≤ b.headroom.toNat

/-- The key material of one link and what is done to refill it. -/
structure Supply where
  /-- The buffer, while the link is up. -/
  buffer : Option KeyBuffer
  session : Option Session
  /-- The events about charging on the link, the earliest first. -/
  record : List Event
  /-- The requests for key material for the link, the latest first. -/
  asked : List Exchange

namespace Supply

variable {key : LinkKey} {size : Bytes} {q q' : Supply}

/-- The transport is asked for key material for a session, which ends if the transport refuses. -/
inductive Asked (key : LinkKey) (s : Session) (bytes : Bytes) (q : Supply) : Supply → Prop
  | taken (now : Millis) :
      Asked key s bytes q
        { q with session := some s, asked := ⟨.charge key bytes now, none⟩ :: q.asked }
  | refused (now : Millis) (e : TransportError) :
      Asked key s bytes q
        { q with
          session := none
          record := q.record ++ [.chargingAbandoned key s.id s.delivered e.message]
          asked := ⟨.charge key bytes now, some e⟩ :: q.asked }

/-- A link that is low and has no session gets one, for which the transport is asked at once; any
other link is left as it is. -/
inductive Checked (key : LinkKey) (size : Bytes) (q : Supply) : Supply → Prop
  | idle (h : ∀ b, q.buffer = some b → b.isBelowThreshold = true → q.session ≠ none) :
      Checked key size q q
  | opened {b : KeyBuffer} {s : Session} {q' : Supply} (hb : q.buffer = some b)
      (hlow : b.isBelowThreshold = true) (hs : q.session = none) (hfresh : s.Fresh b)
      (h : Asked key s (s.roundSize size)
        { q with
          session := some s
          record := q.record ++ [.chargingStarted key s.id s.target] } q') :
      Checked key size q q'

/-- What a call that delivers nothing to a link can do to it. -/
inductive Served (key : LinkKey) (size : Bytes) (q : Supply) : Supply → Prop
  | still : Served key size q q
  | checked {q' : Supply} (h : Checked key size q q') : Served key size q q'
  /-- The timer of the next round has fired. -/
  | round {s : Session} {q' : Supply} (hs : q.session = some s)
      (h : Asked key { s with followUp := none } (s.roundSize size) q q') : Served key size q q'
  | givenUp {s : Session} (hs : q.session = some s) (reason : String) :
      Served key size q
        { q with
          session := none
          record := q.record ++ [.chargingAbandoned key s.id s.delivered reason] }
  | debited {b b' : KeyBuffer} {amount : Bytes} (hb : q.buffer = some b)
      (hd : b.debit amount = .ok (b', none)) : Served key size q { q with buffer := some b' }
  /-- A debit leads below the threshold. -/
  | dropped {b b' : KeyBuffer} {amount : Bytes} {x : Crossing} {q' : Supply}
      (hb : q.buffer = some b) (hd : b.debit amount = .ok (b', some x))
      (h : Checked key size { q with buffer := some b' } q') : Served key size q q'
  | raised {b : KeyBuffer} {q' : Supply} (hdown : q.buffer = none) (hkey : key.isLoop = false)
      (h : Checked key size { q with buffer := some b } q') : Served key size q q'
  | lowered : Served key size q { q with buffer := none, session := none }

/-- What a delivery can do to its link. -/
inductive Fed (key : LinkKey) (q : Supply) : Supply → Prop
  | refused (h : q.buffer = none ∨ q.session = none) : Fed key q q
  | goesOn {b : KeyBuffer} {s s' : Session} {bytes : Bytes} (hb : q.buffer = some b)
      (hs : q.session = some s)
      (hs' : s' = s.recordDelivery bytes (b.credit bytes).2.applied)
      (hfull : (b.credit bytes).1.isFull = false) (hrest : s'.remaining ≠ 0) (timer : TimerId) :
      Fed key q
        { q with
          buffer := some (b.credit bytes).1
          session := some { s' with followUp := some timer }
          record := q.record ++
            [.chargingProgress key s'.id (b.credit bytes).2.applied (b.credit bytes).1.current] }
  | completed {b : KeyBuffer} {s s' : Session} {bytes : Bytes} (hb : q.buffer = some b)
      (hs : q.session = some s)
      (hs' : s' = s.recordDelivery bytes (b.credit bytes).2.applied) :
      Fed key q
        { q with
          buffer := some (b.credit bytes).1
          session := none
          record := q.record ++ [.chargingCompleted key s'.id s'.delivered s'.applied] }

/-- A link that is down comes up and is checked, or nothing is done. -/
def ComesUp (key : LinkKey) (size : Bytes) (q q' : Supply) : Prop :=
  q' = q ∨ q.buffer = none ∧ key.isLoop = false ∧
    ∃ b, Checked key size { q with buffer := some b } q'

theorem Asked.buffer_eq {s : Session} {bytes : Bytes} (h : Asked key s bytes q q') :
    q'.buffer = q.buffer := by
  cases h <;> rfl

theorem Checked.buffer_eq (h : Checked key size q q') : q'.buffer = q.buffer := by
  cases h with
  | idle => rfl
  | opened _ _ _ _ ha => exact ha.buffer_eq

theorem ComesUp.served (h : ComesUp key size q q') : Served key size q q' := by
  rcases h with rfl | ⟨hdown, hkey, b, hc⟩
  · exact .still
  · exact .raised hdown hkey hc

/-- A link comes up once at most. -/
theorem ComesUp.trans {q'' : Supply} (h : ComesUp key size q q') (h' : ComesUp key size q' q'') :
    ComesUp key size q q'' := by
  rcases h with rfl | ⟨hdown, hkey, b, hc⟩
  · exact h'
  · rcases h' with rfl | ⟨hdown', -⟩
    · exact .inr ⟨hdown, hkey, b, hc⟩
    · cases hdown'.symm.trans hc.buffer_eq

/-- What comes of a request does not hang on the session as it was. -/
theorem Asked.of_session {s : Session} {bytes : Bytes} {t : Option Session}
    (h : Asked key s bytes { q with session := t } q') : Asked key s bytes q q' := by
  cases h with
  | taken now => exact .taken now
  | refused now e => exact .refused now e

/-! ## Links that are low -/

/-- The link is up and low, and has no session. -/
def Idle (q : Supply) : Prop :=
  ∃ b, q.buffer = some b ∧ b.isBelowThreshold = true ∧ q.session = none

/-- It has been recorded that a session on the link was given up. -/
def GaveUp (key : LinkKey) (q q' : Supply) : Prop :=
  ∃ es s delivered reason, q'.record = q.record ++ es ∧
    Event.chargingAbandoned key s delivered reason ∈ es

theorem Asked.gaveUp {s : Session} {bytes : Bytes} (h : Asked key s bytes q q') (hi : q'.Idle) :
    GaveUp key q q' := by
  obtain ⟨b, -, -, hnone⟩ := hi
  cases h with
  | taken now => cases hnone
  | refused now e => exact ⟨_, s.id, s.delivered, e.message, rfl, List.mem_singleton_self _⟩

/-- Where a check leaves a link idle, a session has been opened and given up. -/
theorem Checked.gaveUp (h : Checked key size q q') (hi : q'.Idle) : GaveUp key q q' := by
  cases h with
  | idle hnot =>
    obtain ⟨b, hb, hlow, hnone⟩ := hi
    exact absurd hnone (hnot b hb hlow)
  | @opened b s _ hb hlow hs hfresh hasked =>
    obtain ⟨es, k, delivered, reason, hrecord, hmem⟩ := hasked.gaveUp hi
    exact ⟨.chargingStarted key s.id s.target :: es, k, delivered, reason,
      hrecord.trans (List.append_assoc _ _ _), List.mem_cons_of_mem _ hmem⟩

/-- A debit that crosses no threshold leaves the level on its side. -/
theorem isBelowThreshold_of_debit_none {b b' : KeyBuffer} {amount : Bytes}
    (h : b.debit amount = .ok (b', none)) : b'.isBelowThreshold = b.isBelowThreshold := by
  obtain ⟨-, -, -, -, -, hcrossing⟩ := KeyBuffer.debit_eq_ok_iff.1 h
  rw [KeyBuffer.crossingFrom] at hcrossing
  split at hcrossing
  · rename_i hlevel
    unfold KeyBuffer.level at hlevel
    cases hb : b.isBelowThreshold <;> cases hb' : b'.isBelowThreshold <;>
      rw [hb, hb'] at hlevel <;> first | rfl | cases hlevel
  · cases hcrossing

/-- A call leaves a link idle only if it was so before, or where a session has been given up. -/
theorem Served.idle_before (h : Served key size q q') (hi : q'.Idle) :
    q.Idle ∨ GaveUp key q q' := by
  cases h with
  | still => exact .inl hi
  | checked hc => exact .inr (hc.gaveUp hi)
  | round hs ha => exact .inr (ha.gaveUp hi)
  | givenUp hs reason => exact .inr ⟨_, _, _, reason, rfl, List.mem_singleton_self _⟩
  | @debited b b' _ hb hd =>
    obtain ⟨c, hc, hlow, hnone⟩ := hi
    obtain rfl := Option.some.inj hc
    exact .inl ⟨b, hb, isBelowThreshold_of_debit_none hd ▸ hlow, hnone⟩
  | dropped hb hd hc => exact .inr (hc.gaveUp hi)
  | raised hdown hkey hc => exact .inr (hc.gaveUp hi)
  | lowered =>
    obtain ⟨b, hb, -⟩ := hi
    cases hb

/-- A delivery leaves a link idle only if it was so before, or where it ends the session. -/
theorem Fed.idle_before (h : Fed key q q') (hi : q'.Idle) :
    q.Idle ∨ ∃ es s delivered applied, q'.record = q.record ++ es ∧
      Event.chargingCompleted key s delivered applied ∈ es := by
  cases h with
  | refused => exact .inl hi
  | goesOn =>
    obtain ⟨b, -, -, hnone⟩ := hi
    cases hnone
  | completed => exact .inr ⟨_, _, _, _, rfl, List.mem_singleton_self _⟩

/-! ## What a session has left to deliver -/

/-- An open session has delivered less than its target and all of it has fitted, and the rest of it
fits as well. -/
def Covered (q : Supply) : Prop :=
  ∀ s, q.session = some s → ∃ b, q.buffer = some b ∧ s.applied = s.delivered ∧
    s.delivered.toNat < s.target.toNat ∧
    s.target.toNat - s.delivered.toNat ≤ b.headroom.toNat

theorem covered_of_none (h : q.session = none) : q.Covered := fun s hs => by
  cases h.symm.trans hs

/-- What a session needs does not hang on its timer. -/
theorem Covered.of_asked {s : Session} {bytes : Bytes} (h : Asked key s bytes q q')
    (hq : ({ q with session := some s } : Supply).Covered) : q'.Covered := by
  cases h with
  | taken now => exact hq
  | refused now e => exact covered_of_none rfl

theorem Covered.of_checked (hq : q.Covered) (h : Checked key size q q') : q'.Covered := by
  cases h with
  | idle => exact hq
  | @opened b s _ hb hlow hs hfresh hasked =>
    refine .of_asked hasked fun t ht => ⟨b, hb, ?_⟩
    obtain rfl := Option.some.inj ht
    have hzero : s.delivered.toNat = 0 := congrArg UInt64.toNat hfresh.delivered
    refine ⟨hfresh.applied.trans hfresh.delivered.symm, hzero ▸ hfresh.pos, ?_⟩
    rw [hzero]
    exact hfresh.fits

/-- A debit makes room. -/
theorem Covered.of_debit (hq : q.Covered) {b b' : KeyBuffer} {amount : Bytes}
    {crossing : Option Crossing} (hb : q.buffer = some b)
    (hd : b.debit amount = .ok (b', crossing)) :
    ({ q with buffer := some b' } : Supply).Covered := by
  intro s hs
  obtain ⟨c, hc, happlied, hlt, hfits⟩ := hq s hs
  obtain rfl := Option.some.inj (hb.symm.trans hc)
  refine ⟨b', rfl, happlied, hlt, Nat.le_trans hfits ?_⟩
  obtain ⟨-, -, -, hmax, -, -⟩ := KeyBuffer.debit_eq_ok_iff.1 hd
  have hlevel := KeyBuffer.toNat_debit hd
  rw [KeyBuffer.toNat_headroom, KeyBuffer.toNat_headroom, hmax]
  omega

theorem Covered.of_served (hq : q.Covered) (h : Served key size q q') : q'.Covered := by
  cases h with
  | still => exact hq
  | checked hc => exact hq.of_checked hc
  | round hs ha =>
    refine .of_asked ha fun t ht => ?_
    obtain rfl := Option.some.inj ht
    obtain ⟨b, hrest⟩ := hq _ hs
    exact ⟨b, hrest⟩
  | givenUp => exact covered_of_none rfl
  | debited hb hd => exact hq.of_debit hb hd
  | dropped hb hd hc => exact (hq.of_debit hb hd).of_checked hc
  | @raised b _ hdown hkey hc =>
    refine Covered.of_checked (fun s hs => ?_) hc
    obtain ⟨c, hc, -⟩ := hq s hs
    cases hdown.symm.trans hc
  | lowered => exact covered_of_none rfl

/-- A delivery that does not reach the target fits into the buffer whole. -/
theorem Covered.of_fed (hq : q.Covered) (h : Fed key q q') : q'.Covered := by
  cases h with
  | refused => exact hq
  | @goesOn b s s' bytes hb hs hs' hfull hrest timer =>
    obtain ⟨c, hc, happlied, hlt, hfits⟩ := hq s hs
    obtain rfl := Option.some.inj (hb.symm.trans hc)
    intro t ht
    obtain rfl := Option.some.inj ht
    have hremaining : 0 < s'.remaining.toNat := by
      refine Nat.pos_of_ne_zero fun hzero => hrest ?_
      rwa [← UInt64.toNat_inj]
    have htarget := s.target.toNat_lt
    have hwhole : (b.credit bytes).2.applied.toNat = min bytes.toNat b.headroom.toNat :=
      b.toNat_fitting bytes
    have hcur := b.toNat_credit bytes
    have hmax := UInt64.le_iff_toNat_le.1 b.current_le_maximum
    rw [KeyBuffer.toNat_headroom] at hwhole hfits
    subst hs'
    simp only [Session.toNat_remaining, Session.recordDelivery, UInt64.toNat_addSat,
      UInt64.size] at hremaining
    refine ⟨_, rfl, ?_, ?_, ?_⟩
    · show s.applied.addSat (b.credit bytes).2.applied = s.delivered.addSat bytes
      rw [happlied, show (b.credit bytes).2.applied = bytes from UInt64.toNat_inj.1 (by omega)]
    · show (s.delivered.addSat bytes).toNat < s.target.toNat
      rw [UInt64.toNat_addSat, UInt64.size]
      omega
    · show s.target.toNat - (s.delivered.addSat bytes).toNat ≤ (b.credit bytes).1.headroom.toNat
      rw [UInt64.toNat_addSat, UInt64.size, KeyBuffer.toNat_headroom, hcur]
      show _ ≤ b.maximum.toNat - _
      omega
  | completed => exact covered_of_none rfl

/-- There is room in the buffer of an open session. -/
theorem Covered.lt_maximum (hq : q.Covered) {s : Session} (hs : q.session = some s) :
    ∃ b, q.buffer = some b ∧ s.applied = s.delivered ∧ s.delivered < s.target ∧
      b.current < b.maximum := by
  obtain ⟨b, hb, happlied, hlt, hfits⟩ := hq s hs
  refine ⟨b, hb, happlied, UInt64.lt_iff_toNat_lt.2 hlt, UInt64.lt_iff_toNat_lt.2 ?_⟩
  rw [KeyBuffer.toNat_headroom] at hfits
  omega

/-- What holds of the supply of every link. -/
structure Sound (key : LinkKey) (q : Supply) : Prop where
  covered : q.Covered
  /-- A link that is up joins two nodes. -/
  joins : q.buffer.isSome = true → key.isLoop = false

theorem Sound.of_served (hq : q.Sound key) (h : Served key size q q') : q'.Sound key := by
  refine ⟨hq.covered.of_served h, fun hup => ?_⟩
  cases h with
  | still | givenUp => exact hq.joins hup
  | checked hc => exact hq.joins (hc.buffer_eq ▸ hup)
  | round _ ha => exact hq.joins (ha.buffer_eq ▸ hup)
  | debited hb | dropped hb => exact hq.joins (hb ▸ rfl)
  | raised _ hkey => exact hkey
  | lowered => cases hup

theorem Sound.of_fed (hq : q.Sound key) (h : Fed key q q') : q'.Sound key := by
  refine ⟨hq.covered.of_fed h, fun hup => ?_⟩
  cases h with
  | refused => exact hq.joins hup
  | goesOn hb | completed hb => exact hq.joins (hb ▸ rfl)

/-! ## Sessions that stay open -/

/-- The transport has taken a request for the link. -/
def Taken (key : LinkKey) (q q' : Supply) : Prop :=
  ∃ xs bytes now, q'.asked = xs ++ q.asked ∧ ⟨.charge key bytes now, none⟩ ∈ xs

theorem Asked.is_taken {s t : Session} {bytes : Bytes} (h : Asked key s bytes q q')
    (ht : q'.session = some t) : t = s ∧ Taken key q q' := by
  cases h with
  | taken now =>
    exact ⟨(Option.some.inj ht).symm, [⟨.charge key bytes now, none⟩], bytes, now, rfl,
      List.mem_singleton_self _⟩
  | refused now e => cases ht

theorem Checked.open_before (h : Checked key size q q') {s : Session} (hs : q'.session = some s) :
    q.session = some s ∨ Taken key q q' := by
  cases h with
  | idle => exact .inl hs
  | opened _ _ _ _ ha => exact .inr (ha.is_taken hs).2

/-- A session that is open after a call was so before, or the transport has taken a request. -/
theorem Served.open_before (h : Served key size q q') {s : Session} (hs : q'.session = some s) :
    q.session = some s ∨ Taken key q q' := by
  cases h with
  | still => exact .inl hs
  | checked hc => exact hc.open_before hs
  | round _ ha => exact .inr (ha.is_taken hs).2
  | givenUp => cases hs
  | debited => exact .inl hs
  | dropped _ _ hc => exact hc.open_before hs
  | raised _ _ hc => exact hc.open_before hs
  | lowered => cases hs

/-- A session that is open after a delivery has the timer of its next round. -/
theorem Fed.open_after (hq : q.Covered) (h : Fed key q q') {s : Session}
    (hs : q'.session = some s) : s.followUp.isSome = true := by
  cases h with
  | refused hnone =>
    obtain ⟨b, hb, -⟩ := hq s hs
    rcases hnone with hnone | hnone
    · cases hnone.symm.trans hb
    · cases hnone.symm.trans hs
  | goesOn =>
    obtain rfl := Option.some.inj hs
    rfl
  | completed => cases hs

/-! ## Requests -/

/-- The transport has been asked for key material for a session, with what is recorded in the same
call: for one byte at least, and for no more than a limit and what the session has left to
deliver. -/
structure Round (key : LinkKey) (limit : Nat) (q : Supply) (es : List Event) (q' : Supply)
    (x : Exchange) (s : Session) (bytes : Bytes) : Prop where
  request : ∃ now, x.request = .charge key bytes now
  /-- The session was open before, or has been opened in the same call. -/
  opened : q.session = some s ∨ s.delivered = 0 ∧ .chargingStarted key s.id s.target ∈ es
  /-- What is taken is asked for a session that stays open. -/
  taken : x.failure = none → q'.session = some { s with followUp := none }
  /-- What is refused ends the session. -/
  refused : ∀ e, x.failure = some e →
    q'.session = none ∧ .chargingAbandoned key s.id s.delivered e.message ∈ es
  pos : 1 ≤ bytes.toNat
  bounded : bytes.toNat ≤ min limit s.remaining.toNat

/-- Between two supplies the transport has been asked for rounds, and events have been recorded. -/
def Rounds (key : LinkKey) (limit : Nat) (q q' : Supply) : Prop :=
  ∃ xs es, q'.asked = xs ++ q.asked ∧ q'.record = q.record ++ es ∧
    ∀ x ∈ xs, ∃ s bytes, Round key limit q es q' x s bytes

/-- Nothing is asked for. -/
theorem Rounds.of_asked {limit : Nat} (hasked : q'.asked = q.asked) {es : List Event}
    (hrecord : q'.record = q.record ++ es) : Rounds key limit q q' :=
  ⟨[], es, hasked, hrecord, fun _ hx => absurd hx List.not_mem_nil⟩

/-- What is asked for does not hang on the buffer. -/
theorem Rounds.of_buffer {limit : Nat} {b : Option KeyBuffer}
    (h : Rounds key limit { q with buffer := b } q') : Rounds key limit q q' := by
  obtain ⟨xs, es, hasked, hrecord, hrounds⟩ := h
  refine ⟨xs, es, hasked, hrecord, fun x hx => ?_⟩
  obtain ⟨s, bytes, hround⟩ := hrounds x hx
  exact ⟨s, bytes, hround.request, hround.opened, hround.taken, hround.refused, hround.pos,
    hround.bounded⟩

/-- The transport is asked for a session that was open before, or has been opened since. -/
theorem Asked.rounds {s : Session} {es : List Event}
    (h : Asked key { s with followUp := none } (s.roundSize size)
      { q with session := some s, record := q.record ++ es } q')
    (hopen : q.session = some s ∨ s.delivered = 0 ∧ .chargingStarted key s.id s.target ∈ es)
    (hsize : 0 < size.toNat) (hlt : s.delivered.toNat < s.target.toNat) :
    Rounds key size.toNat q q' := by
  have hpos : 1 ≤ (s.roundSize size).toNat := by
    rw [Session.toNat_roundSize, Session.toNat_remaining]
    omega
  have hmost : (s.roundSize size).toNat ≤ min size.toNat s.remaining.toNat := by
    rw [Session.toNat_roundSize]
    omega
  cases h with
  | taken now =>
    refine ⟨[⟨.charge key (s.roundSize size) now, none⟩], es, rfl, rfl, fun x hx => ?_⟩
    obtain rfl := List.mem_singleton.1 hx
    exact ⟨s, _, ⟨now, rfl⟩, hopen, fun _ => rfl, nofun, hpos, hmost⟩
  | refused now e =>
    refine ⟨[⟨.charge key (s.roundSize size) now, some e⟩],
      es ++ [.chargingAbandoned key s.id s.delivered e.message], rfl, List.append_assoc _ _ _,
      fun x hx => ?_⟩
    obtain rfl := List.mem_singleton.1 hx
    refine ⟨s, _, ⟨now, rfl⟩, ?_, nofun, ?_, hpos, hmost⟩
    · exact hopen.imp_right fun ⟨hzero, hmem⟩ => ⟨hzero, List.mem_append_left _ hmem⟩
    · intro e' he
      obtain rfl := Option.some.inj he
      exact ⟨rfl, List.mem_append_right _ (List.mem_singleton_self _)⟩

theorem Checked.rounds (h : Checked key size q q') (hsize : 0 < size.toNat) :
    Rounds key size.toNat q q' := by
  cases h with
  | idle => exact .of_asked rfl (List.append_nil _).symm
  | @opened b s _ hb hlow hs hfresh ha =>
    obtain ⟨id, target, delivered, applied, startedAt, followUp⟩ := s
    obtain rfl : followUp = none := hfresh.followUp
    obtain rfl : delivered = 0 := hfresh.delivered
    exact Asked.rounds (s := ⟨id, target, 0, applied, startedAt, none⟩) ha
      (.inr ⟨rfl, List.mem_singleton_self _⟩) hsize hfresh.pos

theorem Served.rounds (h : Served key size q q') (hq : q.Covered) (hsize : 0 < size.toNat) :
    Rounds key size.toNat q q' := by
  cases h with
  | still | debited | lowered => exact .of_asked rfl (List.append_nil _).symm
  | givenUp => exact .of_asked rfl rfl
  | checked hc => exact hc.rounds hsize
  | dropped _ _ hc => exact (hc.rounds hsize).of_buffer
  | raised _ _ hc => exact (hc.rounds hsize).of_buffer
  | @round s _ hs ha =>
    obtain ⟨b, hb, happlied, hlt, hfits⟩ := hq s hs
    have hround : Asked key { s with followUp := none } (s.roundSize size)
        { q with session := some s, record := q.record ++ [] } q' := by
      rw [← hs, List.append_nil]
      exact ha
    exact hround.rounds (.inl hs) hsize hlt

theorem Fed.rounds {limit : Nat} (h : Fed key q q') : Rounds key limit q q' := by
  cases h with
  | refused => exact .of_asked rfl (List.append_nil _).symm
  | goesOn | completed => exact .of_asked rfl rfl

end Supply

end KeyReserve
