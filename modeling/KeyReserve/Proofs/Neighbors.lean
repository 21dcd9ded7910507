import KeyReserve.Link.Registry
import Mathlib.Data.List.Induction

/-!
# Neighbours

The links that are up are told by what has been asked of them: a link is up once it has been brought
up and until it is torn down. They make the neighbours of each node known. No link joins a node to
itself and each is there once, so that a walk over the links in their order finds the neighbours of
a node in ascending order, each of them once. A walk in any other order finds the same neighbours,
which are sorted then.

## Main definitions

* `Links.Call`, `Links.after`: what is asked of the links, and the links afterwards;
* `Links.Up`: a link has been brought up and has not been torn down since;
* `LinkKey.Before`: the order of links, by their lower ends and then by their higher ones;
* `Ranked.sort`: keys put in their order.

## Main results

* `Links.mem_keys_after_iff`: which links are up;
* `Links.sort_filterMap_other`: the order in which links are visited does not matter;
* `Links.neighbors_exact`: the neighbours of each node.
-/

namespace KeyReserve

namespace Ranked

variable {κ : Type} [Ranked κ]

/-- Keys in the order of their positions. -/
def sort (ks : List κ) : List κ := ks.mergeSort fun a b => rank a ≤ rank b

/-- Keys that ascend are what the same keys are sorted to, in whatever order they come. -/
theorem sort_eq_of_perm {ks ls : List κ} (hperm : ks.Perm ls)
    (hls : ls.Pairwise (rank · < rank ·)) : sort ks = ls := by
  have hsorted : (sort ks).Pairwise (rank · ≤ rank ·) := by
    refine (List.pairwise_mergeSort (fun a b c hab hbc => ?_) (fun a b => ?_) ks).imp
      of_decide_eq_true
    · exact decide_eq_true (Nat.le_trans (of_decide_eq_true hab) (of_decide_eq_true hbc))
    · simpa using Nat.le_total (rank a) (rank b)
  exact List.Perm.eq_of_pairwise (fun _ _ _ _ hab hba => rank_inj (Nat.le_antisymm hab hba))
    hsorted (hls.imp Nat.le_of_lt) ((List.mergeSort_perm ks _).trans hperm)

end Ranked

/-- Links are in the order of their lower ends, and where these are one of their higher ends. -/
def LinkKey.Before (a b : LinkKey) : Prop :=
  a.low.val < b.low.val ∨ a.low = b.low ∧ a.high.val < b.high.val

namespace LinkKey

theorem other_eq_some_iff {k : LinkKey} {a b : NodeId} : k.other a = some b ↔ k = join a b :=
  ⟨eq_join_of_other, fun h => h ▸ other_join a b⟩

/-- The end opposite to a node is the one or the other. -/
theorem ends_of_other {k : LinkKey} {a b : NodeId} (h : k.other a = some b) :
    k.low = a ∧ k.high = b ∨ k.low = b ∧ k.high = a := by
  unfold other at h
  split at h
  · rename_i hlow
    exact .inl ⟨hlow, Option.some.inj h⟩
  · split at h
    · rename_i hhigh
      exact .inr ⟨Option.some.inj h, hhigh⟩
    · cases h

theorem low_lt_high {k : LinkKey} (h : k.isLoop = false) : k.low.val < k.high.val := by
  refine UInt32.lt_of_le_of_ne k.low_le_high fun heq => ?_
  rw [isLoop, decide_eq_false_iff_not] at h
  exact h (congrArg NodeId.mk heq)

/-- Of two links of one node, the later one has the greater opposite end. -/
theorem Before.other_lt {k l : LinkKey} (h : k.Before l) (hk : k.isLoop = false)
    (hl : l.isLoop = false) {a b c : NodeId} (hb : k.other a = some b) (hc : l.other a = some c) :
    b.val < c.val := by
  have hkl := low_lt_high hk
  have hll := low_lt_high hl
  rcases ends_of_other hb with ⟨hka, rfl⟩ | ⟨rfl, hka⟩ <;>
    rcases ends_of_other hc with ⟨hla, rfl⟩ | ⟨rfl, hla⟩
  · rcases h with hlt | ⟨-, hlt⟩
    · rw [hka, hla] at hlt
      exact absurd hlt (UInt32.lt_irrefl _)
    · exact hlt
  · have hlk : l.low.val < k.low.val := hka.symm ▸ hla ▸ hll
    rcases h with hlt | ⟨heq, -⟩
    · exact absurd (UInt32.lt_trans hlt hlk) (UInt32.lt_irrefl _)
    · exact absurd (heq ▸ hlk) (UInt32.lt_irrefl _)
  · exact UInt32.lt_trans (hka ▸ hkl) (hla ▸ hll)
  · rcases h with hlt | ⟨-, hlt⟩
    · exact hlt
    · rw [hka, hla] at hlt
      exact absurd hlt (UInt32.lt_irrefl _)

theorem before_iff_rank_lt {k l : LinkKey} : k.Before l ↔ rank k < rank l :=
  NodeId.pairRank_lt_iff.symm

end LinkKey

namespace Links

/-- What is asked of the links. -/
inductive Call where
  | establish (key : LinkKey) (bounds : Bounds) (now : Millis)
  | teardown (key : LinkKey)

/-- The links once something has been asked of them. A link that cannot be brought up changes
nothing. -/
def apply (ls : Links) : Call → Links
  | .establish key bounds now =>
    match ls.establish key bounds now with
    | .ok ls => ls
    | .error _ => ls
  | .teardown key => ls.erase key

/-- The links after several calls in a row, none of them being up before. -/
def after (cs : List Call) : Links := cs.foldl apply .empty

/-- A call asks for a link that is none of a node to itself, with bounds in order. -/
def Call.Opens (c : Call) (key : LinkKey) : Prop :=
  ∃ bounds now, c = .establish key bounds now ∧ key.isLoop = false ∧
    ∃ buffer, KeyBuffer.ofBounds bounds = .ok buffer

/-- A link has been brought up and has not been torn down since. -/
def Up (cs : List Call) (key : LinkKey) : Prop :=
  ∃ before c later, cs = before ++ c :: later ∧ c.Opens key ∧ .teardown key ∉ later

variable {ls : Links} {cs : List Call} {key : LinkKey}

theorem after_concat (cs : List Call) (c : Call) : after (cs ++ [c]) = (after cs).apply c :=
  List.foldl_append

theorem up_concat {c : Call} :
    Up (cs ++ [c]) key ↔ c.Opens key ∨ Up cs key ∧ c ≠ .teardown key := by
  constructor
  · rintro ⟨before, d, later, hcs, hopens, hlater⟩
    rcases List.eq_nil_or_concat later with rfl | ⟨later, e, rfl⟩
    · obtain ⟨-, heq⟩ := List.append_inj' hcs rfl
      cases heq
      exact .inl hopens
    · rw [List.concat_eq_append, ← List.cons_append, ← List.append_assoc] at hcs
      obtain ⟨rfl, heq⟩ := List.append_inj' hcs rfl
      cases heq
      rw [List.concat_eq_append, List.mem_append, not_or, List.mem_singleton] at hlater
      exact .inr ⟨⟨before, d, later, rfl, hopens, hlater.1⟩, fun h => hlater.2 h.symm⟩
  · rintro (hopens | ⟨⟨before, d, later, rfl, hopens, hlater⟩, hne⟩)
    · exact ⟨cs, c, [], rfl, hopens, List.not_mem_nil⟩
    · refine ⟨before, d, later ++ [c], by simp, hopens, ?_⟩
      rw [List.mem_append, not_or, List.mem_singleton]
      exact ⟨hlater, fun h => hne h.symm⟩

theorem opens_establish_iff {k : LinkKey} {bounds : Bounds} {now : Millis} :
    (Call.establish k bounds now).Opens key ↔
      key = k ∧ k.isLoop = false ∧ ∃ buffer, KeyBuffer.ofBounds bounds = .ok buffer := by
  constructor
  · rintro ⟨_, _, heq, hloop, hbuffer⟩
    cases heq
    exact ⟨rfl, hloop, hbuffer⟩
  · rintro ⟨rfl, hloop, hbuffer⟩
    exact ⟨bounds, now, rfl, hloop, hbuffer⟩

theorem not_opens_teardown {k : LinkKey} : ¬ (Call.teardown k).Opens key := by
  rintro ⟨_, _, heq, -⟩
  cases heq

/-- A link is up after a call if the call brings it up, or if it was up and is not torn down. -/
theorem contains_apply {c : Call} : (ls.apply c).contains key = true ↔
    c.Opens key ∨ ls.contains key = true ∧ c ≠ .teardown key := by
  cases c with
  | establish k bounds now =>
    simp only [opens_establish_iff, ne_eq, reduceCtorEq, not_false_eq_true, and_true, apply]
    cases hup : ls.establish k bounds now with
    | ok ls' =>
      obtain ⟨hloop, -, buffer, hbuffer, rfl⟩ := establish_eq_ok_iff.1 hup
      simp only [Table.contains, Table.find?_insert, hloop, hbuffer, Except.ok.injEq, exists_eq',
        and_true]
      by_cases hk : key = k <;> simp [hk]
    | error e =>
      refine (or_iff_right_of_imp ?_).symm
      rintro ⟨rfl, hloop, buffer, hbuffer⟩
      by_contra hdown
      have hnone : ls.find? key = none := by
        simpa [Table.contains, Option.not_isSome_iff_eq_none] using hdown
      cases hup.symm.trans (establish_eq_ok_iff.2 ⟨hloop, hnone, buffer, hbuffer, rfl⟩)
  | teardown k =>
    rw [or_iff_right not_opens_teardown, apply, Table.contains, Table.find?_erase, Table.contains]
    by_cases hk : key = k
    · simp [hk]
    · simp [hk, Ne.symm hk]

/-- The links that are up are those that have been brought up and not been torn down since. -/
theorem contains_after_iff : (after cs).contains key = true ↔ Up cs key := by
  induction cs using List.reverseRecOn with
  | nil =>
    refine iff_of_false Bool.false_ne_true ?_
    rintro ⟨before, c, later, hcs, -⟩
    exact List.append_ne_nil_of_right_ne_nil before (List.cons_ne_nil c later) hcs.symm
  | append_singleton cs c ih => rw [after_concat, contains_apply, up_concat, ih]

theorem mem_keys_after_iff : key ∈ (after cs).keys ↔ Up cs key :=
  Table.mem_keys_iff.trans contains_after_iff

theorem Up.isLoop_eq (h : Up cs key) : key.isLoop = false := by
  obtain ⟨_, _, _, _, ⟨_, _, _, hloop, _⟩, _⟩ := h
  exact hloop

/-! ## Neighbours -/

theorem mem_neighbors_iff {n m : NodeId} :
    m ∈ ls.neighbors n ↔ ls.contains (.join n m) = true := by
  rw [neighbors, List.mem_filterMap]
  simp only [LinkKey.other_eq_some_iff, exists_eq_right]
  exact Table.mem_keys_iff

theorem keys_pairwise_before (ls : Links) : ls.keys.Pairwise LinkKey.Before :=
  ls.keys_pairwise.imp LinkKey.before_iff_rank_lt.2

/-- Where no link is one of a node to itself, the opposite ends of the links of a node ascend. -/
theorem neighbors_pairwise (h : ∀ key ∈ ls.keys, key.isLoop = false) (n : NodeId) :
    (ls.neighbors n).Pairwise (·.val < ·.val) := by
  rw [neighbors, List.pairwise_filterMap]
  refine ls.keys_pairwise_before.imp_of_mem fun hk hl hbefore b hb c hc => ?_
  exact hbefore.other_lt (h _ hk) (h _ hl) hb hc

/-- Links may be visited in any order: their opposite ends are sorted to the neighbours. -/
theorem sort_filterMap_other (h : ∀ key ∈ ls.keys, key.isLoop = false) {visited : List LinkKey}
    (hvisited : visited.Perm ls.keys) (n : NodeId) :
    Ranked.sort (visited.filterMap (·.other n)) = ls.neighbors n :=
  Ranked.sort_eq_of_perm (hvisited.filterMap _)
    ((neighbors_pairwise h n).imp UInt32.lt_iff_toNat_lt.1)

/-- Whatever has been asked of the links: the links that are up stand in their order, each of them
once, and they are those that have been brought up and not been torn down since. The neighbours of a
node ascend, and are the nodes to which it has a link, whichever end is named first. No node is a
neighbour of itself, and of two nodes either both are neighbours of each other or neither is. They
may be told from the links in any order. -/
theorem neighbors_exact (cs : List Call) :
    ((after cs).keys.Pairwise LinkKey.Before ∧ ∀ key, key ∈ (after cs).keys ↔ Up cs key) ∧
    (∀ n, ((after cs).neighbors n).Pairwise (·.val < ·.val) ∧ n ∉ (after cs).neighbors n ∧
      ∀ m, (m ∈ (after cs).neighbors n ↔ (after cs).contains (.join n m) = true) ∧
        (m ∈ (after cs).neighbors n ↔ (after cs).contains (.join m n) = true) ∧
        (m ∈ (after cs).neighbors n ↔ n ∈ (after cs).neighbors m)) ∧
    ∀ visited : List LinkKey, visited.Perm (after cs).keys →
      Ranked.sort visited = (after cs).keys ∧
        ∀ n, Ranked.sort (visited.filterMap (·.other n)) = (after cs).neighbors n := by
  have hloop : ∀ key ∈ (after cs).keys, key.isLoop = false := fun key hkey =>
    (mem_keys_after_iff.1 hkey).isLoop_eq
  refine ⟨⟨keys_pairwise_before _, fun key => mem_keys_after_iff⟩, fun n => ?_, ?_⟩
  · refine ⟨neighbors_pairwise hloop n, fun hself => ?_, fun m => ⟨mem_neighbors_iff, ?_, ?_⟩⟩
    · have hkey := hloop _ (Table.mem_keys_iff.2 (mem_neighbors_iff.1 hself))
      rw [LinkKey.isLoop_join] at hkey
      cases hkey
    · rw [LinkKey.join_comm]
      exact mem_neighbors_iff
    · rw [mem_neighbors_iff, mem_neighbors_iff, LinkKey.join_comm]
  · intro visited hvisited
    exact ⟨Ranked.sort_eq_of_perm hvisited (after cs).keys_pairwise,
      sort_filterMap_other hloop hvisited⟩

/-- Three links are brought up, one of them twice, and one that is there is torn down and brought up
again. -/
def Call.network : List Call :=
  [.establish (.join ⟨1⟩ ⟨4⟩) ⟨10, 50, 100, 100⟩ 0, .establish (.join ⟨2⟩ ⟨1⟩) ⟨10, 50, 100, 100⟩ 1,
    .establish (.join ⟨1⟩ ⟨2⟩) ⟨10, 50, 100, 60⟩ 2, .establish (.join ⟨3⟩ ⟨3⟩) ⟨10, 50, 100, 60⟩ 3,
    .teardown (.join ⟨1⟩ ⟨4⟩), .establish (.join ⟨4⟩ ⟨1⟩) ⟨10, 50, 100, 100⟩ 4,
    .establish (.join ⟨3⟩ ⟨2⟩) ⟨10, 50, 100, 100⟩ 5]

example : (after Call.network).neighbors ⟨1⟩ = [⟨2⟩, ⟨4⟩] ∧
    (after Call.network).neighbors ⟨2⟩ = [⟨1⟩, ⟨3⟩] := by
  decide

end Links

end KeyReserve
