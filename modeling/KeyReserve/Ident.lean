import KeyReserve.Table
import KeyReserve.Word

/-!
# Identifiers

Nodes, packets, charging sessions and timers are told apart by numbers. Each kind of number is a
type of its own with one written form.

## Main definitions

* `NodeId`, `PacketId`, `SessionId`, `TimerId`, each with its `text`.
-/

namespace KeyReserve

/-- A node of the network. -/
structure NodeId where
  val : UInt32
  deriving DecidableEq, Inhabited

namespace NodeId

instance : Ranked NodeId where
  rank n := n.val.toNat
  rank_inj h := congrArg NodeId.mk (UInt32.toNat_inj.1 h)

/-- The position of a pair of nodes, in the order of its first part and then of its second. -/
def pairRank (a b : NodeId) : Nat := a.val.toNat * UInt32.size + b.val.toNat

theorem eq_of_pairRank_eq {a b c d : NodeId} (h : pairRank a b = pairRank c d) :
    a = c ∧ b = d := by
  obtain ⟨a⟩ := a
  obtain ⟨b⟩ := b
  obtain ⟨c⟩ := c
  obtain ⟨d⟩ := d
  simp only [pairRank, UInt32.size] at h
  have hb := b.toNat_lt
  have hd := d.toNat_lt
  have hac : a = c := UInt32.toNat_inj.1 (by omega)
  have hbd : b = d := UInt32.toNat_inj.1 (by omega)
  exact ⟨congrArg mk hac, congrArg mk hbd⟩

/-- Pairs are in the order of their first parts, and where these are one of their second parts. -/
theorem pairRank_lt_iff {a b c d : NodeId} :
    pairRank a b < pairRank c d ↔ a.val < c.val ∨ a = c ∧ b.val < d.val := by
  obtain ⟨a⟩ := a
  obtain ⟨b⟩ := b
  obtain ⟨c⟩ := c
  obtain ⟨d⟩ := d
  have hb := b.toNat_lt
  have hd := d.toNat_lt
  simp only [pairRank, UInt32.size, mk.injEq, UInt32.lt_iff_toNat_lt, ← UInt32.toNat_inj]
  omega

/-- The written form, such as "node:7". -/
def text (n : NodeId) : String := "node:" ++ toString n.val

end NodeId

/-- A packet, as its sender numbers it; nothing keeps two packets from sharing a number. -/
structure PacketId where
  val : UInt64
  deriving DecidableEq, Inhabited

namespace PacketId

instance : Ranked PacketId where
  rank p := p.val.toNat
  rank_inj h := congrArg PacketId.mk (UInt64.toNat_inj.1 h)

/-- The written form, such as "pkt:7". -/
def text (p : PacketId) : String := "pkt:" ++ toString p.val

end PacketId

/-- A charging session, numbered in the order of opening. -/
structure SessionId where
  val : Nat
  deriving DecidableEq, Inhabited

/-- The written form, such as "charge:7". -/
def SessionId.text (s : SessionId) : String := "charge:" ++ toString s.val

/-- A scheduled timer, numbered in the order of scheduling. -/
structure TimerId where
  val : Nat
  deriving DecidableEq, Inhabited

instance : Ranked TimerId where
  rank t := t.val
  rank_inj h := congrArg TimerId.mk h

/-- The written form, such as "event:7". -/
def TimerId.text (t : TimerId) : String := "event:" ++ toString t.val

end KeyReserve
