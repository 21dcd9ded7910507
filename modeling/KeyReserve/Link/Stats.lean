import KeyReserve.Word

/-!
# Link statistics

What has happened on a link since it was established, as running totals.
-/

namespace KeyReserve

/-- Running totals of one link. -/
structure LinkStats where
  /-- Packets whose key was paid for. -/
  packetsSecured : Nat := 0
  /-- The payload bytes of those packets. -/
  bytesSecured : Nat := 0
  /-- The key bytes debited for those packets. -/
  keyBytesConsumed : Nat := 0
  /-- Packets refused for want of key material. -/
  packetsRejected : Nat := 0
  /-- Packets dropped past their delay bound. -/
  packetsExpired : Nat := 0
  /-- The key bytes that charging put into the buffer. -/
  keyBytesCharged : Nat := 0
  sessionsCompleted : Nat := 0
  sessionsAbandoned : Nat := 0
  deriving DecidableEq, Inhabited

namespace LinkStats

/-- Counts a packet whose key was paid for. -/
def secured (s : LinkStats) (payload : UInt32) (cost : Bytes) : LinkStats :=
  { s with
    packetsSecured := s.packetsSecured + 1
    bytesSecured := s.bytesSecured + payload.toNat
    keyBytesConsumed := s.keyBytesConsumed + cost.toNat }

/-- Counts a packet refused for want of key material. -/
def rejected (s : LinkStats) : LinkStats := { s with packetsRejected := s.packetsRejected + 1 }

/-- Counts a packet dropped past its delay bound. -/
def expired (s : LinkStats) : LinkStats := { s with packetsExpired := s.packetsExpired + 1 }

/-- Counts key bytes put into the buffer. -/
def charged (s : LinkStats) (bytes : Bytes) : LinkStats :=
  { s with keyBytesCharged := s.keyBytesCharged + bytes.toNat }

/-- Counts a session that reached its target. -/
def completed (s : LinkStats) : LinkStats :=
  { s with sessionsCompleted := s.sessionsCompleted + 1 }

/-- Counts a session given up. -/
def abandoned (s : LinkStats) : LinkStats :=
  { s with sessionsAbandoned := s.sessionsAbandoned + 1 }

end LinkStats

end KeyReserve
