import KeyReserve.Link.Registry
import KeyReserve.Packet.Tariff

/-!
# Securing a packet

Securing a packet on a link prices it and debits the buffer of the link in one step. A packet
that cannot be paid for comes back as it was, with the reason.

## Main definitions

* `Link.secure`: the link afterwards, and the secured packet or the refusal.
-/

namespace KeyReserve

/-- A packet that could not be paid for. -/
structure Refusal where
  packet : Packet
  nextHop : NodeId
  cause : BufferError
  deriving DecidableEq

/-- The wording of a refusal. -/
def Refusal.message (r : Refusal) : String :=
  "packet " ++ r.packet.id.text ++ " refused on link toward " ++ r.nextHop.text ++ ": " ++
    r.cause.message

/-- A packet that has been paid for, and the crossing to which the debit led. -/
structure Secured where
  packet : SecuredPacket
  crossing : Option Crossing
  deriving DecidableEq

/-- Pays for a packet on a link, or counts the refusal. -/
def Link.secure (link : Link) (key : LinkKey) (tariff : Tariff) (packet : Packet)
    (nextHop : NodeId) : Link × Except Refusal Secured :=
  let cost := tariff.price packet.payload
  match link.buffer.debit cost with
  | .ok (buffer, crossing) =>
    ({ link with buffer, stats := link.stats.secured packet.payload cost },
      .ok ⟨{ packet, link := key, nextHop, encryption := tariff.encryption,
             authentication := tariff.authentication, cost }, crossing⟩)
  | .error cause =>
    -- the buffer is as it was
    ({ link with stats := link.stats.rejected }, .error ⟨packet, nextHop, cause⟩)

end KeyReserve
