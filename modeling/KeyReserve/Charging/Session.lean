import KeyReserve.Ident

/-!
# Charging sessions

A session is one replenishment of the buffer of a link. Its target is fixed when it opens and it
is delivered in rounds of a bounded size.

## Main definitions

* `Session`, `Session.remaining`, `Session.roundSize`, `Session.recordDelivery`.
-/

namespace KeyReserve

/-- A replenishment in progress. -/
structure Session where
  id : SessionId
  /-- The bytes to be delivered in all. -/
  target : Bytes
  /-- The bytes delivered so far. -/
  delivered : Bytes := 0
  /-- The part of the delivered bytes that fitted into the buffer. -/
  applied : Bytes := 0
  startedAt : Millis
  /-- The timer of the next round, while one is set. -/
  followUp : Option TimerId := none
  deriving DecidableEq

namespace Session

/-- How long the session has been open. -/
def age (s : Session) (now : Millis) : Millis := now.subSat s.startedAt

/-- The bytes still to be delivered. -/
def remaining (s : Session) : Bytes := s.target.subSat s.delivered

/-- The bytes of the next round: what remains, but at most a given size. -/
def roundSize (s : Session) (sendSize : Bytes) : Bytes :=
  if s.remaining ≤ sendSize then s.remaining else sendSize

/-- Adds a delivery of which a part fitted into the buffer. -/
def recordDelivery (s : Session) (delivered applied : Bytes) : Session :=
  { s with
    delivered := s.delivered.addSat delivered
    applied := s.applied.addSat applied }

theorem toNat_remaining (s : Session) :
    s.remaining.toNat = s.target.toNat - s.delivered.toNat :=
  UInt64.toNat_subSat _ _

theorem toNat_roundSize (s : Session) (sendSize : Bytes) :
    (s.roundSize sendSize).toNat = min s.remaining.toNat sendSize.toNat := by
  unfold roundSize
  split <;> rename_i h <;> rw [UInt64.le_iff_toNat_le] at h <;> omega

end Session

end KeyReserve
