import KeyReserve.Link.Key

/-!
# Packets

A packet becomes a secured packet when its key has been paid for on the link that it is to leave
on. A secured packet may carry a bound on its age.

## Main definitions

* `Packet`, `SecuredPacket`, `TrafficClass`;
* `DelayTag`: a bound on the age of a packet, with the time from which the age counts.
-/

namespace KeyReserve

/-- How payloads are enciphered. -/
inductive Encryption where
  | plain
  | oneTimePad
  | aes256
  deriving DecidableEq, Inhabited

/-- The written form of a mode of encryption on a packet. -/
def Encryption.text : Encryption → String
  | .plain => "none"
  | .oneTimePad => "otp"
  | .aes256 => "aes256"

/-- How packets are authenticated. -/
inductive Authentication where
  | untagged
  | vmac
  deriving DecidableEq, Inhabited

/-- The written form of a mode of authentication. -/
def Authentication.text : Authentication → String
  | .untagged => "none"
  | .vmac => "vmac"

/-- Traffic that spends key material, and traffic that does not. -/
inductive TrafficClass where
  | secured
  | bestEffort
  deriving DecidableEq, Inhabited

/-- The written form of a class of traffic. -/
def TrafficClass.text : TrafficClass → String
  | .secured => "secured"
  | .bestEffort => "best-effort"

/-- A packet as its sender hands it over. -/
structure Packet where
  id : PacketId
  destination : NodeId
  payload : UInt32
  deriving DecidableEq, Inhabited

/-- A bound on the age of a packet; the bound zero means that there is none. -/
structure DelayTag where
  maxDelay : Millis
  createdAt : Millis
  deriving DecidableEq, Inhabited

namespace DelayTag

/-- How old the packet is. -/
def age (t : DelayTag) (now : Millis) : Millis := now.subSat t.createdAt

/-- Whether the packet is older than its bound. -/
def isExpired (t : DelayTag) (now : Millis) : Bool := 0 < t.maxDelay && t.maxDelay < t.age now

theorem toNat_age (t : DelayTag) (now : Millis) :
    (t.age now).toNat = now.toNat - t.createdAt.toNat := UInt64.toNat_subSat now t.createdAt

theorem isExpired_iff (t : DelayTag) (now : Millis) : t.isExpired now = true ↔
    0 < t.maxDelay.toNat ∧ t.maxDelay.toNat < now.toNat - t.createdAt.toNat := by
  rw [isExpired, Bool.and_eq_true, decide_eq_true_eq, decide_eq_true_eq, UInt64.lt_iff_toNat_lt,
    UInt64.lt_iff_toNat_lt, toNat_age, UInt64.toNat_zero]

/-- The last instant at which the packet is not too old, where there is a bound. -/
def deadline? (t : DelayTag) : Option Millis :=
  if 0 < t.maxDelay then some (t.createdAt.addSat t.maxDelay) else none

end DelayTag

/-- A packet whose key has been paid for. -/
structure SecuredPacket where
  packet : Packet
  /-- The link on which the key was paid. -/
  link : LinkKey
  nextHop : NodeId
  encryption : Encryption
  authentication : Authentication
  /-- The key bytes paid. -/
  cost : Bytes
  delay : Option DelayTag := none
  deriving DecidableEq

namespace SecuredPacket

def id (p : SecuredPacket) : PacketId := p.packet.id

def destination (p : SecuredPacket) : NodeId := p.packet.destination

end SecuredPacket

end KeyReserve
