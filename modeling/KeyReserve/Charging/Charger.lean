import KeyReserve.Buffer
import KeyReserve.Charging.Session
import KeyReserve.Link.Key

/-!
# The charger

The charger refills buffers that have fallen below their threshold, with at most one session for
each link. It moves no bytes itself: whoever does so reports each delivery, and the charger puts
it into the buffer and says whether the session goes on. A session ends when its buffer is full or
its target is delivered; one that is given up keeps what it has brought.

## Main definitions

* `Charger`, `Charger.openIfLow`, `Charger.receive`, `Charger.abandon`;
* `Charger.setFollowUp`, `Charger.takeFollowUp`: the timer of the next round.

## Main results

* `Charger.toNat_sendSize_ofSettings`: the size of a round is one byte at least.
-/

namespace KeyReserve

/-- How buffers are charged. -/
structure ChargingSettings where
  /-- The most that one round delivers; zero counts as one. -/
  sendSize : Bytes
  /-- The time between two rounds. -/
  roundInterval : Millis
  /-- The most that one session delivers; zero means as much as fits. -/
  totalAmount : Bytes
  deriving DecidableEq, Inhabited

/-- Why a charging operation fails. -/
inductive ChargingError where
  /-- Whoever moves the bytes has failed. -/
  | transportFailure (link : LinkKey) (reason : String)
  | noSession (link : LinkKey)
  deriving DecidableEq

/-- The wording of a charging error. -/
def ChargingError.message : ChargingError → String
  | .transportFailure link reason =>
    "charging transport failure on link " ++ link.text ++ ": " ++ reason
  | .noSession link => "no charging session on link " ++ link.text

/-- Whether a link is being charged. -/
inductive ChargingState where
  | idle
  | charging
  deriving DecidableEq, Inhabited

/-- The written form of a charging state. -/
def ChargingState.text : ChargingState → String
  | .idle => "idle"
  | .charging => "charging"

/-- The open sessions by link, and how sessions are run. -/
structure Charger where
  /-- The most that one round delivers, at least one byte. -/
  sendSize : Bytes
  totalAmount : Bytes
  sessions : Table LinkKey Session
  /-- The number of the next session to be opened. -/
  nextSession : Nat

/-- The opening of a session. -/
structure SessionOpened where
  session : SessionId
  target : Bytes
  firstRound : Bytes
  deriving DecidableEq

/-- Whether a session goes on after a delivery. -/
inductive SessionProgress where
  | goesOn (nextRound : Bytes)
  | completed (session : Session)
  deriving DecidableEq

/-- What a delivery did. -/
structure Delivery where
  applied : Bytes
  crossing : Option Crossing
  progress : SessionProgress
  deriving DecidableEq

/-- A session given up, and why. -/
structure SessionAbandoned where
  session : Session
  cause : ChargingError
  deriving DecidableEq

namespace Charger

/-- A charger with no session open; the first session will be number one. -/
def ofSettings (s : ChargingSettings) : Charger :=
  { sendSize := if s.sendSize = 0 then 1 else s.sendSize
    totalAmount := s.totalAmount
    sessions := .empty
    nextSession := 1 }

/-- The session of a link, while one is open. -/
def session? (c : Charger) (link : LinkKey) : Option Session := c.sessions.find? link

def state (c : Charger) (link : LinkKey) : ChargingState :=
  if c.sessions.contains link then .charging else .idle

/-- The number of open sessions. -/
def openSessions (c : Charger) : Nat := c.sessions.size

/-- What a session on a buffer is to deliver: what fits, but at most the total amount, if there
is one. -/
def targetFor (c : Charger) (buffer : KeyBuffer) : Bytes :=
  if 0 < c.totalAmount ∧ c.totalAmount < buffer.headroom then c.totalAmount else buffer.headroom

/-- Opens a session on a link whose buffer is below its threshold, unless one is open. -/
def openIfLow (c : Charger) (link : LinkKey) (buffer : KeyBuffer) (now : Millis) :
    Charger × Option SessionOpened :=
  if !buffer.isBelowThreshold || c.sessions.contains link then
    (c, none)
  else
    -- the target is fixed here; what traffic takes out later is not added to it
    let session : Session :=
      { id := ⟨c.nextSession⟩, target := c.targetFor buffer, startedAt := now }
    ({ c with
        sessions := c.sessions.insert link session
        nextSession := c.nextSession + 1 },
      some ⟨session.id, session.target, session.roundSize c.sendSize⟩)

/-- Puts a delivery into the buffer and moves the session of the link on. -/
def receive (c : Charger) (link : LinkKey) (buffer : KeyBuffer) (bytes : Bytes) :
    Except ChargingError (Charger × KeyBuffer × Delivery) :=
  match c.sessions.find? link with
  | none => .error (.noSession link)
  | some session =>
    -- all that was delivered counts towards the target, whether it fitted or not
    let (buffer, credited) := buffer.credit bytes
    let session := session.recordDelivery bytes credited.applied
    if buffer.isFull || session.remaining = 0 then
      .ok ({ c with sessions := c.sessions.erase link }, buffer,
        ⟨credited.applied, credited.crossing, .completed session⟩)
    else
      .ok ({ c with sessions := c.sessions.insert link session }, buffer,
        ⟨credited.applied, credited.crossing, .goesOn (session.roundSize c.sendSize)⟩)

/-- Ends the session of a link, with no more than the session as it was. -/
def cancel (c : Charger) (link : LinkKey) : Charger × Option Session :=
  ({ c with sessions := c.sessions.erase link }, c.sessions.find? link)

/-- Ends the session of a link because whoever moves the bytes has failed. -/
def abandon (c : Charger) (link : LinkKey) (reason : String) :
    Charger × Option SessionAbandoned :=
  ({ c with sessions := c.sessions.erase link },
    (c.sessions.find? link).map (⟨·, .transportFailure link reason⟩))

/-- Notes the timer of the next round, and gives the timer that it takes the place of. -/
def setFollowUp (c : Charger) (link : LinkKey) (timer : TimerId) :
    Except ChargingError (Charger × Option TimerId) :=
  match c.sessions.find? link with
  | none => .error (.noSession link)
  | some s =>
    .ok ({ c with sessions := c.sessions.insert link { s with followUp := some timer } },
      s.followUp)

/-- Forgets the timer of the next round, and gives it. -/
def takeFollowUp (c : Charger) (link : LinkKey) : Charger × Option TimerId :=
  match c.sessions.find? link with
  | none => (c, none)
  | some s =>
    ({ c with sessions := c.sessions.insert link { s with followUp := none } }, s.followUp)

/-- The size of the next round of the session on a link. -/
def nextRound (c : Charger) (link : LinkKey) : Option Bytes :=
  (c.sessions.find? link).map (·.roundSize c.sendSize)

/-- A round of no bytes would not lead on, so that one byte is the least. -/
theorem toNat_sendSize_ofSettings (s : ChargingSettings) :
    (ofSettings s).sendSize.toNat = max 1 s.sendSize.toNat := by
  show (if s.sendSize = 0 then 1 else s.sendSize : Bytes).toNat = _
  split
  · rename_i hzero
    rw [hzero]
    rfl
  · rename_i hpos
    rw [← UInt64.toNat_inj] at hpos
    exact (Nat.max_eq_right (Nat.one_le_iff_ne_zero.2 hpos)).symm

end Charger

end KeyReserve
