import KeyReserve.Packet.Basic

/-!
# Delay bounds

A packet older than its bound is dropped when it is about to be released; the key spent on it
stays spent. A packet that waits also has a timer, so that it is dropped even if its link never
becomes ready; which timer that is, is remembered by packet number.

## Main definitions

* `SecuredPacket.tagged`, `SecuredPacket.expiry?`: the bound of a packet and the report of its end;
* `Deadlines`: the timers of waiting packets.

## Main results

* `SecuredPacket.expiry?_eq_some_iff`: what a report says.
-/

namespace KeyReserve

/-- The report of a packet dropped past its bound. -/
structure DelayExceeded where
  packet : PacketId
  link : LinkKey
  /-- The key bytes that had been paid for the packet. -/
  cost : Bytes
  age : Millis
  maxDelay : Millis
  deriving DecidableEq

/-- The wording of the report. -/
def DelayExceeded.message (e : DelayExceeded) : String :=
  "packet " ++ e.packet.text ++ " on link " ++ e.link.text ++
    s!" exceeded its delay bound ({e.age} ms > {e.maxDelay} ms)"

/-- The packet with a bound on its age, which counts from now. -/
def SecuredPacket.tagged (p : SecuredPacket) (maxDelay now : Millis) : SecuredPacket :=
  { p with delay := some ⟨maxDelay, now⟩ }

/-- The report of expiry, if the packet is older than its bound. -/
def SecuredPacket.expiry? (p : SecuredPacket) (now : Millis) : Option DelayExceeded :=
  match p.delay with
  | none => none
  | some tag =>
    if tag.isExpired now then
      some { packet := p.id, link := p.link, cost := p.cost, age := tag.age now,
             maxDelay := tag.maxDelay }
    else
      none

namespace SecuredPacket

variable {p : SecuredPacket} {now : Millis}

/-- What the report of a packet says. -/
theorem expiry?_eq_some_iff {e : DelayExceeded} : p.expiry? now = some e ↔
    ∃ tag, p.delay = some tag ∧ tag.isExpired now = true ∧
      e = ⟨p.id, p.link, p.cost, tag.age now, tag.maxDelay⟩ := by
  unfold expiry?
  cases p.delay with
  | none => simp only [reduceCtorEq, false_and, exists_false]
  | some tag =>
    simp only [Option.ite_none_right_eq_some, Option.some.injEq, exists_eq_left', @eq_comm _ e]

theorem link_of_expiry? {e : DelayExceeded} (h : p.expiry? now = some e) : e.link = p.link := by
  obtain ⟨tag, -, -, rfl⟩ := expiry?_eq_some_iff.1 h
  rfl

theorem expiry?_eq_none_iff {tag : DelayTag} (h : p.delay = some tag) :
    p.expiry? now = none ↔ tag.isExpired now = false := by
  rw [expiry?, h]
  simp only [ite_eq_right_iff, reduceCtorEq, imp_false, Bool.not_eq_true]

end SecuredPacket

/-- The timer that ends the wait of a packet. -/
structure Deadline where
  link : LinkKey
  timer : TimerId
  deriving DecidableEq

/-- The timers of waiting packets, by packet number. -/
abbrev Deadlines := Table PacketId Deadline

namespace Deadlines

/-- The timer of a packet. -/
def timer? (d : Deadlines) (p : PacketId) : Option TimerId := (d.find? p).map (·.timer)

/-- The timers of the packets on a link, the earliest made first. -/
def timersOf (d : Deadlines) (link : LinkKey) : List TimerId :=
  ((d.entries.filter (fun e => e.2.link = link)).map (·.2.timer)).mergeSort
    (fun a b => a.val ≤ b.val)

/-- The deadlines of the packets on other links. -/
def dropLink (d : Deadlines) (link : LinkKey) : Deadlines := d.filter (fun _ e => e.link ≠ link)

end Deadlines

end KeyReserve
