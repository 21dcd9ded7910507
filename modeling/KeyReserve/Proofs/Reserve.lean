import KeyReserve.Node.Charging

/-!
# The reserves of a node

Of each link that is up a node reports how the level of its buffer crosses the threshold and how its
sessions go. The reserve of a node is what these reports are about: the levels, the counts of
charging and the open sessions. Every call changes it in one of four ways, and it is told here what
is recorded of each.

## Main definitions

* `Meter`, `Reserve`: the level and the counts of a link, and those of all links with their
  sessions;
* `Reserve.Steps`: sessions are opened and given up, and links come up;
* `Reserve.Paid`, `Reserve.Credited`, `Reserve.Closed`: a packet is paid for, key material comes in,
  links go down;
* `Reserve.Changed`: what a call can do, with what it records.

## Main results

* `Reserve.Attended.of_changed`: sessions are open on links that are up only.
-/

namespace KeyReserve

/-- The level of a link and its counts of charging. -/
structure Meter where
  buffer : KeyBuffer
  charged : Nat := 0
  completed : Nat := 0
  abandoned : Nat := 0

/-- The meter once key material has come in. -/
def Meter.credit (m : Meter) (bytes : Bytes) : Meter :=
  { m with
    buffer := (m.buffer.credit bytes).1
    charged := m.charged + (m.buffer.credit bytes).2.applied.toNat }

/-- The meter once a session has reached its target. -/
def Meter.complete (m : Meter) : Meter := { m with completed := m.completed + 1 }

/-- The meter once a session has been given up. -/
def Meter.abandon (m : Meter) : Meter := { m with abandoned := m.abandoned + 1 }

/-- The levels, the counts of charging and the open sessions of the links of a node. -/
structure Reserve where
  /-- The meters of the links that are up. -/
  meters : LinkKey → Option Meter
  sessions : LinkKey → Option Session
  /-- The number of the next session to be opened. -/
  nextSession : Nat

/-- The event is about packets, not about levels or sessions. -/
def Event.isAside : Event → Bool
  | .packetExpired _ => true
  | .noSecuredRoute .. => true
  | _ => false

namespace Reserve

variable (r : Reserve)

def withMeter (key : LinkKey) (m : Option Meter) : Reserve :=
  { r with meters := fun k => if k = key then m else r.meters k }

def withSession (key : LinkKey) (s : Option Session) : Reserve :=
  { r with sessions := fun k => if k = key then s else r.sessions k }

theorem withMeter_self (key : LinkKey) : r.withMeter key (r.meters key) = r := by
  have h : (fun k => if k = key then r.meters key else r.meters k) = r.meters := by
    funext k
    split
    · rename_i hk
      rw [hk]
    · rfl
  simp only [withMeter, h]

theorem withSession_self (key : LinkKey) : r.withSession key (r.sessions key) = r := by
  have h : (fun k => if k = key then r.sessions key else r.sessions k) = r.sessions := by
    funext k
    split
    · rename_i hk
      rw [hk]
    · rfl
  simp only [withSession, h]

theorem withMeter_withMeter (key : LinkKey) (k m : Option Meter) :
    (r.withMeter key k).withMeter key m = r.withMeter key m := by
  simp only [withMeter, mk.injEq, and_true]
  funext j
  split <;> rfl

/-- The reserve once a session has been opened on a link. -/
def opened (key : LinkKey) (target : Bytes) (now : Millis) : Reserve :=
  { r.withSession key (some { id := ⟨r.nextSession⟩, target, startedAt := now }) with
    nextSession := r.nextSession + 1 }

/-- The reserve once the session on a link has been given up. -/
def abandoned (key : LinkKey) : Reserve :=
  (r.withSession key none).withMeter key ((r.meters key).map Meter.abandon)

/-- A single step that moves no key material, with what is recorded of it. -/
inductive Step (offered : LinkKey → Bounds → Prop) : Reserve → List Event → Reserve → Prop
  | noted (r : Reserve) {e : Event} (h : e.isAside = true) : Step offered r [e] r
  | opened {r : Reserve} {key : LinkKey} {m : Meter} (hm : r.meters key = some m)
      (hlow : m.buffer.isBelowThreshold = true) (hs : r.sessions key = none) (target : Bytes)
      (now : Millis) :
      Step offered r [.chargingStarted key ⟨r.nextSession⟩ target] (r.opened key target now)
  | abandoned {r : Reserve} {key : LinkKey} {s : Session} (hs : r.sessions key = some s)
      (reason : String) :
      Step offered r [.chargingAbandoned key s.id s.delivered reason] (r.abandoned key)
  | raised {r : Reserve} {key : LinkKey} {bounds : Bounds} {b : KeyBuffer}
      (hm : r.meters key = none) (ho : offered key bounds) (hb : KeyBuffer.ofBounds bounds = .ok b) :
      Step offered r [] (r.withMeter key (some { buffer := b }))

/-- Steps in a row, with what is recorded of them. -/
inductive Steps (offered : LinkKey → Bounds → Prop) : Reserve → List Event → Reserve → Prop
  | refl (r : Reserve) : Steps offered r [] r
  | step {r t u : Reserve} {es fs : List Event} (h : Steps offered r es t)
      (h' : Step offered t fs u) : Steps offered r (es ++ fs) u

/-- A packet is paid for on a link. If its level drops below the threshold this is recorded first,
and next that a session opens, unless one is open. -/
inductive Paid (offered : LinkKey → Bounds → Prop) (r : Reserve) : List Event → Reserve → Prop
  | debited {key : LinkKey} {m : Meter} {b : KeyBuffer} {amount : Bytes} {crossing : Option Crossing}
      {es : List Event} {u : Reserve} (hm : r.meters key = some m)
      (hd : m.buffer.debit amount = .ok (b, crossing))
      (h : Steps offered (r.withMeter key (some { m with buffer := b })) es u)
      (hnext : crossing.isSome = true → r.sessions key = none →
        ∃ s target fs, es = .chargingStarted key s target :: fs) :
      Paid offered r (crossing.toList.map (.levelChanged key) ++ es) u

/-- Key material comes in on a link with an open session. A level that rises to the threshold is
recorded first, and then that the session goes on or has ended. -/
inductive Credited (r : Reserve) : List Event → Reserve → Prop
  | goesOn {key : LinkKey} {m : Meter} {s : Session} (hm : r.meters key = some m)
      (hs : r.sessions key = some s) (bytes : Bytes) :
      Credited r
        ((m.buffer.credit bytes).2.crossing.toList.map (.levelChanged key) ++
          [.chargingProgress key s.id (m.buffer.credit bytes).2.applied
            (m.buffer.credit bytes).1.current])
        ((r.withMeter key (some (m.credit bytes))).withSession key
          (some (s.recordDelivery bytes (m.buffer.credit bytes).2.applied)))
  | completed {key : LinkKey} {m : Meter} {s s' : Session} {bytes : Bytes}
      (hm : r.meters key = some m) (hs : r.sessions key = some s)
      (hs' : s' = s.recordDelivery bytes (m.buffer.credit bytes).2.applied) :
      Credited r
        ((m.buffer.credit bytes).2.crossing.toList.map (.levelChanged key) ++
          [.chargingCompleted key s.id s'.delivered s'.applied])
        ((r.withMeter key (some (m.credit bytes).complete)).withSession key none)

/-- Links have gone down with their sessions, and nothing else has changed. -/
structure Closed (r u : Reserve) : Prop where
  nextSession : u.nextSession = r.nextSession
  links : ∀ key, u.meters key = r.meters key ∧ u.sessions key = r.sessions key ∨
    u.meters key = none ∧ u.sessions key = none

/-- What a call can do to a reserve, with what it records. -/
inductive Changed (offered : LinkKey → Bounds → Prop) (r : Reserve) (es : List Event) (u : Reserve) :
    Prop where
  | moved (h : Steps offered r es u)
  | paid (h : Paid offered r es u)
  | credited (h : Credited r es u)
  | closed (hes : es = []) (h : Closed r u)

section

variable {offered offered' : LinkKey → Bounds → Prop} {r t u : Reserve} {es fs : List Event}

/-! ## Steps in a row -/

theorem Steps.single (h : Step offered r es u) : Steps offered r es u := (Steps.refl r).step h

theorem Steps.of_eq (h : u = r) : Steps offered r [] u := h ▸ .refl u

theorem Steps.trans (h : Steps offered r es t) (h' : Steps offered t fs u) :
    Steps offered r (es ++ fs) u := by
  induction h' with
  | refl => exact (List.append_nil es).symm ▸ h
  | step _ hstep ih => exact List.append_assoc es _ _ ▸ ih.step hstep

theorem Step.mono (h : Step offered r es u) (hle : ∀ key b, offered key b → offered' key b) :
    Step offered' r es u := by
  cases h with
  | noted h => exact .noted _ h
  | opened hm hlow hs target now => exact .opened hm hlow hs target now
  | abandoned hs reason => exact .abandoned hs reason
  | raised hm ho hb => exact .raised hm (hle _ _ ho) hb

theorem Steps.mono (h : Steps offered r es u) (hle : ∀ key b, offered key b → offered' key b) :
    Steps offered' r es u := by
  induction h with
  | refl => exact .refl _
  | step _ hstep ih => exact ih.step (hstep.mono hle)

/-! ## Links that go down -/

theorem Closed.refl (r : Reserve) : Closed r r := ⟨rfl, fun _ => .inl ⟨rfl, rfl⟩⟩

theorem Closed.trans (h : Closed r t) (h' : Closed t u) : Closed r u where
  nextSession := h'.nextSession.trans h.nextSession
  links key := by
    rcases h'.links key with ⟨hm, hs⟩ | hdown
    · rw [hm, hs]
      exact h.links key
    · exact .inr hdown

/-! ## Sessions on links that are up -/

/-- Each open session is one of a link that is up. -/
def Attended (r : Reserve) : Prop :=
  ∀ key, (r.sessions key).isSome = true → (r.meters key).isSome = true

theorem Attended.withMeter (h : r.Attended) (key : LinkKey) (m : Meter) :
    (r.withMeter key (some m)).Attended := by
  intro k hk
  show (if k = key then some m else r.meters k).isSome = true
  split
  · rfl
  · exact h k hk

theorem Attended.withSession (h : r.Attended) {key : LinkKey} (hm : (r.meters key).isSome = true)
    (s : Option Session) : (r.withSession key s).Attended := by
  intro k hk
  by_cases heq : k = key
  · exact heq ▸ hm
  · exact h k ((if_neg heq : (r.withSession key s).sessions k = r.sessions k) ▸ hk)

theorem Attended.opened (h : r.Attended) {key : LinkKey} (hm : (r.meters key).isSome = true)
    (target : Bytes) (now : Millis) : (r.opened key target now).Attended :=
  h.withSession hm _

theorem Attended.of_steps (h : r.Attended) (hs : Steps offered r es u) : u.Attended := by
  induction hs with
  | refl => exact h
  | step _ hstep ih =>
    cases hstep with
    | noted => exact ih
    | opened hm _ _ target now => exact ih.opened (hm ▸ rfl) target now
    | @abandoned key s hs reason =>
      have hup := ih key (hs ▸ rfl)
      obtain ⟨m, hm⟩ := Option.isSome_iff_exists.1 hup
      rw [Reserve.abandoned, hm]
      exact (ih.withSession hup none).withMeter key _
    | raised => exact ih.withMeter _ _

theorem Attended.of_changed (h : r.Attended) (hc : Changed offered r es u) : u.Attended := by
  cases hc with
  | moved hs => exact h.of_steps hs
  | paid hp =>
    cases hp with
    | debited _ _ hs _ => exact (h.withMeter _ _).of_steps hs
  | credited hc =>
    cases hc with
    | goesOn => exact (h.withMeter _ _).withSession (congrArg Option.isSome (if_pos rfl)) _
    | completed => exact (h.withMeter _ _).withSession (congrArg Option.isSome (if_pos rfl)) _
  | closed _ hc =>
    intro key hs
    rcases hc.links key with ⟨hm, hsame⟩ | ⟨-, hdown⟩
    · rw [hm]
      exact h key (hsame ▸ hs)
    · rw [hdown] at hs
      cases hs

end

end Reserve

end KeyReserve
