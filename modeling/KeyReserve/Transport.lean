import KeyReserve.Packet.Basic
import KeyReserve.Routing.Candidate

/-!
# The transport

A node hands packets, requests for key material and requests for routes to a transport, which
takes each at once or says why it does not. A transport may answer as it likes, also by what it
has been asked before; all that has passed between the two is kept.

## Main definitions

* `Request`, `TransportError`, `Exchange`: a hand-over and its outcome;
* `Transport`, `Transport.submit`: a way of answering, with the exchanges so far.
-/

namespace KeyReserve

/-- Why a transport does not take something. -/
inductive TransportError where
  /-- It will take it later. -/
  | busy (toward : NodeId)
  | unreachable (node : NodeId)
  | connectionReset (link : LinkKey)
  | sendFailed (reason : String)
  deriving DecidableEq

namespace TransportError

def isBusy : TransportError → Bool
  | .busy _ => true
  | _ => false

/-- The wording of a transport error. -/
def message : TransportError → String
  | .busy node => "transport busy toward " ++ node.text
  | .unreachable node => node.text ++ " unreachable"
  | .connectionReset link => "connection reset on " ++ link.text
  | .sendFailed reason => "send failed: " ++ reason

end TransportError

/-- Something handed to a transport. -/
inductive Request where
  | secured (packet : SecuredPacket)
  | plain (nextHop : NodeId) (packet : Packet)
  /-- Key material for the buffer of a link. -/
  | charge (link : LinkKey) (bytes : Bytes) (now : Millis)
  | route (request : RouteRequest)
  deriving DecidableEq

/-- A hand-over and the error, if the transport did not take it. -/
structure Exchange where
  request : Request
  failure : Option TransportError
  deriving DecidableEq

/-- A way of answering, and what has been answered. -/
structure Transport where
  /-- The answer to a request after some exchanges, the latest of them first. -/
  answer : List Exchange → Request → Option TransportError
  /-- The exchanges so far, the latest first. -/
  history : List Exchange := []

namespace Transport

/-- The transport that takes everything. -/
def accepting : Transport := { answer := fun _ _ => none }

/-- Hands something over. -/
def submit (t : Transport) (r : Request) : Option TransportError × Transport :=
  let failure := t.answer t.history r
  (failure, { t with history := ⟨r, failure⟩ :: t.history })

end Transport

end KeyReserve
