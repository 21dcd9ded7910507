import KeyReserve.Ident

/-!
# Link keys

A link joins two nodes and has no direction, so its key holds the smaller node number first.

## Main definitions

* `LinkKey`, `LinkKey.join`: the key of a link and its construction from the ends in any order;
* `LinkKey.other`: the end opposite to a node.

## Main results

* `LinkKey.join_comm`: the order of the ends is of no account;
* `LinkKey.join_inj`, `LinkKey.other_join`, `LinkKey.eq_join_of_other`: either end and the link give
  the opposite end, and both ends give the link.
-/

namespace KeyReserve

/-- An unordered pair of nodes. -/
structure LinkKey where
  low : NodeId
  high : NodeId
  low_le_high : low.val ≤ high.val
  deriving DecidableEq

namespace LinkKey

theorem eq_of_pairRank_eq {a b : LinkKey}
    (h : NodeId.pairRank a.low a.high = NodeId.pairRank b.low b.high) : a = b := by
  obtain ⟨al, ah, _⟩ := a
  obtain ⟨bl, bh, _⟩ := b
  obtain ⟨rfl, rfl⟩ := NodeId.eq_of_pairRank_eq h
  rfl

instance : Ranked LinkKey := ⟨fun k => NodeId.pairRank k.low k.high, eq_of_pairRank_eq⟩

/-- The key of the link between two nodes. -/
def join (a b : NodeId) : LinkKey :=
  if h : a.val ≤ b.val then ⟨a, b, h⟩ else ⟨b, a, UInt32.le_of_lt (UInt32.not_le.1 h)⟩

/-- Whether a node is an end of the link. -/
def contains (k : LinkKey) (n : NodeId) : Bool := k.low = n || k.high = n

/-- The end opposite to a node, provided that the node is an end. -/
def other (k : LinkKey) (n : NodeId) : Option NodeId :=
  if k.low = n then some k.high else if k.high = n then some k.low else none

/-- Whether both ends are one node. -/
def isLoop (k : LinkKey) : Bool := k.low = k.high

/-- The written form, such as "1<->2". -/
def text (k : LinkKey) : String := s!"{k.low.val}<->{k.high.val}"

theorem join_comm (a b : NodeId) : join a b = join b a := by
  obtain ⟨a⟩ := a
  obtain ⟨b⟩ := b
  simp only [join]
  split <;> split
  · rename_i h1 h2
    cases UInt32.le_antisymm h1 h2
    rfl
  · rfl
  · rfl
  · rename_i h1 h2
    exact absurd (UInt32.le_of_lt (UInt32.not_le.1 h1)) h2

theorem other_join (a b : NodeId) : (join a b).other a = some b := by
  unfold join other
  split
  · exact if_pos rfl
  · rename_i h
    have hne : b ≠ a := fun hba => h (hba ▸ UInt32.le_refl _)
    exact (if_neg hne).trans (if_pos rfl)

theorem eq_join_of_other {k : LinkKey} {a b : NodeId} (h : k.other a = some b) : k = join a b := by
  obtain ⟨low, high, hle⟩ := k
  unfold other at h
  split at h
  · rename_i hlow
    cases hlow
    cases h
    exact (dif_pos hle).symm
  · split at h <;> cases h
    rename_i hhigh
    cases hhigh
    rw [join_comm]
    exact (dif_pos hle).symm

theorem join_inj {a b c : NodeId} (h : join a b = join a c) : b = c := by
  have hb := other_join a b
  rw [h, other_join] at hb
  exact (Option.some.inj hb).symm

theorem isLoop_join (a : NodeId) : (join a a).isLoop = true := by
  unfold join
  split <;> exact decide_eq_true rfl

end LinkKey

end KeyReserve
