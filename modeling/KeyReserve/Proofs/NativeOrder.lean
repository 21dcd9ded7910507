import KeyReserve.Proofs.Candidates
import KeyReserve.Proofs.RouteTables
import Mathlib.Data.List.Nodup

/-!
# The native order of candidates

A lookup lists all that a table knows of the routes to a destination, newer sequence numbers first
and of those with one number the shorter routes first. Random draws come in only where two routes
share both, so that a table without such routes lists the same under every stream.

## Main definitions

* `Candidate.Preferred`: the order of candidates, their draws apart;
* `DistanceVector.Knows`, `OnDemand.Knows`: a candidate for which a table has an entry, and one that
  is alive;
* `Candidate.Listed`: a list of the candidates for a destination in native order.

## Main results

* `Candidate.nativeOrder_pairwise`: the native order puts candidates in order whatever was drawn;
* `Candidate.Listed.unique`: where no two candidates tie there is only one such list;
* `Candidate.listed_candidates`: what the tables of a node list.
-/

namespace KeyReserve

namespace Candidate

/-- A candidate is newer than another, or as new and no longer. -/
def Preferred (a b : Candidate) : Prop := b.seq < a.seq ∨ a.seq = b.seq ∧ a.hops ≤ b.hops

/-- A list of the candidates for a destination that are known, in native order. -/
structure Listed (known : Candidate → Prop) (home destination : NodeId) (found : List Candidate) :
    Prop where
  /-- Each of them stands there once. -/
  once : (found.map (·.nextHop)).Nodup
  known : ∀ c, c ∈ found ↔ c.route.destination = destination ∧ known c
  abroad : ∀ c ∈ found, c.nextHop ≠ home
  ordered : found.Pairwise Preferred

/-- No two known candidates for a destination share both sequence number and hops. -/
def Untied (known : Candidate → Prop) (destination : NodeId) : Prop :=
  ∀ a b, known a → known b → a.route.destination = destination →
    b.route.destination = destination → a.seq = b.seq → a.hops = b.hops → a = b

/-- It is enough to compare the candidates for the destination. -/
theorem Untied.of_mem {known : Candidate → Prop} {destination : NodeId} {found : List Candidate}
    (hknown : ∀ c, c ∈ found ↔ c.route.destination = destination ∧ known c)
    (h : ∀ a ∈ found, ∀ b ∈ found, a.seq = b.seq → a.hops = b.hops → a = b) :
    Untied known destination := fun a b ha hb hda hdb =>
  h a ((hknown a).2 ⟨hda, ha⟩) b ((hknown b).2 ⟨hdb, hb⟩)

/-! ## The order -/

theorem mayPrecede_trans (a b c : Candidate × UInt32) (hab : mayPrecede a b = true)
    (hbc : mayPrecede b c = true) : mayPrecede a c = true := by
  simp only [mayPrecede] at *
  grind

theorem mayPrecede_total (a b : Candidate × UInt32) :
    (mayPrecede a b || mayPrecede b a) = true := by
  simp only [mayPrecede]
  grind

theorem preferred_of_mayPrecede {a b : Candidate × UInt32} (h : mayPrecede a b = true) :
    Preferred a.1 b.1 := by
  unfold mayPrecede at h
  split at h
  · rename_i hseq
    refine .inr ⟨hseq, ?_⟩
    split at h
    · rename_i hhops
      exact UInt8.le_of_eq hhops
    · exact UInt8.le_of_lt (of_decide_eq_true h)
  · exact .inl (of_decide_eq_true h)

/-- Draws decide among candidates that tie only. -/
theorem nativeOrder_pairwise (drawn : List (Candidate × UInt32)) :
    (nativeOrder drawn).Pairwise Preferred :=
  List.pairwise_map.2
    ((List.pairwise_mergeSort mayPrecede_trans mayPrecede_total drawn).imp preferred_of_mayPrecede)

/-- Candidates each of which is preferred to the other tie. -/
theorem Preferred.tied {a b : Candidate} (hab : Preferred a b) (hba : Preferred b a) :
    a.seq = b.seq ∧ a.hops = b.hops := by
  rcases hab with hnewer | ⟨hseq, hhops⟩
  · rcases hba with holder | ⟨hseq, -⟩
    · exact absurd (UInt32.lt_trans hnewer holder) (UInt32.lt_irrefl _)
    · exact absurd (hseq ▸ hnewer) (UInt32.lt_irrefl _)
  · rcases hba with holder | ⟨-, hhops'⟩
    · exact absurd (hseq ▸ holder) (UInt32.lt_irrefl _)
    · exact ⟨hseq, UInt8.le_antisymm hhops hhops'⟩

/-- Where no candidates tie, there is one list of them in order. -/
theorem Listed.unique {known : Candidate → Prop} {home destination : NodeId}
    {found found' : List Candidate} (h : Listed known home destination found)
    (h' : Listed known home destination found') (huntied : Untied known destination) :
    found = found' := by
  have hperm : found.Perm found' :=
    (List.perm_ext_iff_of_nodup (List.Nodup.of_map _ h.once) (List.Nodup.of_map _ h'.once)).2
      fun c => (h.known c).trans (h'.known c).symm
  refine List.Perm.eq_of_pairwise (fun a b ha hb hab hba => ?_) h.ordered h'.ordered hperm
  obtain ⟨hda, hka⟩ := (h.known a).1 ha
  obtain ⟨hdb, hkb⟩ := (h'.known b).1 hb
  obtain ⟨hseq, hhops⟩ := hab.tied hba
  exact huntied a b hka hkb hda hdb hseq hhops

/-- The candidates that the entries which pass a test make. -/
theorem mem_map_entries_iff {ν : Type} (routes : Table Route ν) (test : Route × ν → Bool)
    (hops : ν → UInt8) (seq : ν → UInt32) (c : Candidate) :
    c ∈ (routes.entries.filter test).map (fun e => ⟨e.1, hops e.2, seq e.2⟩) ↔
      ∃ e, routes.find? c.route = some e ∧ test (c.route, e) = true ∧ c.hops = hops e ∧
        c.seq = seq e := by
  simp only [List.mem_map, List.mem_filter, Table.find?_eq_some_iff]
  constructor
  · rintro ⟨⟨r, e⟩, ⟨hentry, htest⟩, rfl⟩
    exact ⟨e, hentry, htest, rfl, rfl⟩
  · rintro ⟨e, hentry, htest, hhops, hseq⟩
    refine ⟨(c.route, e), ⟨hentry, htest⟩, ?_⟩
    rw [← hhops, ← hseq]

end Candidate

/-! ## What the tables list -/

namespace DistanceVector

/-- A candidate for which a table has an entry. -/
def Knows (t : DistanceVector) (c : Candidate) : Prop :=
  ∃ e, t.routes.find? c.route = some e ∧ c.hops = e.hops ∧ c.seq = e.seq

theorem mem_routesTo_iff (t : DistanceVector) (destination : NodeId) (c : Candidate) :
    c ∈ t.routesTo destination ↔ c.route.destination = destination ∧ t.Knows c := by
  rw [routesTo, Candidate.mem_map_entries_iff t.routes _ Entry.hops Entry.seq]
  simp only [decide_eq_true_eq, Knows]
  constructor
  · rintro ⟨e, hfound, hdestination, heq⟩
    exact ⟨hdestination, e, hfound, heq⟩
  · rintro ⟨hdestination, e, hfound, heq⟩
    exact ⟨e, hfound, hdestination, heq⟩

theorem Reached.listed {home : NodeId} {t : DistanceVector} (h : Reached home t)
    (destination : NodeId) :
    Candidate.Listed t.Knows home destination (t.candidates destination).1 := by
  have hknown : ∀ c, c ∈ (t.candidates destination).1 ↔
      c.route.destination = destination ∧ t.Knows c := fun c =>
    (Candidate.drawn_perm _ t.stream).mem_iff.trans (t.mem_routesTo_iff destination c)
  refine ⟨t.nodup_candidates destination, hknown, fun c hc => ?_,
    Candidate.nativeOrder_pairwise _⟩
  obtain ⟨-, e, hfound, -⟩ := (hknown c).1 hc
  exact (h.avoids c.route e hfound).nextHop

end DistanceVector

namespace OnDemand

/-- A candidate for which a cache has an entry that has not expired. At the instant at which it is to
expire an entry is alive. -/
def Knows (t : OnDemand) (now : Millis) (c : Candidate) : Prop :=
  ∃ e, t.routes.find? c.route = some e ∧ now ≤ e.expiresAt ∧ c.hops = e.hops ∧ c.seq = e.seq

theorem mem_routesTo_iff (t : OnDemand) (destination : NodeId) (now : Millis) (c : Candidate) :
    c ∈ t.routesTo destination now ↔ c.route.destination = destination ∧ t.Knows now c := by
  rw [routesTo, Candidate.mem_map_entries_iff t.routes _ Entry.hops Entry.seq]
  simp only [Bool.and_eq_true, decide_eq_true_eq, Bool.not_eq_true', Entry.isExpired,
    decide_eq_false_iff_not, UInt64.not_lt, Knows]
  constructor
  · rintro ⟨e, hfound, ⟨hdestination, hlive⟩, heq⟩
    exact ⟨hdestination, e, hfound, hlive, heq⟩
  · rintro ⟨hdestination, e, hfound, hlive, heq⟩
    exact ⟨e, hfound, ⟨hdestination, hlive⟩, heq⟩

theorem Reached.listed {home : NodeId} {t : OnDemand} (h : Reached home t) (destination : NodeId)
    (now : Millis) :
    Candidate.Listed (t.Knows now) home destination (t.candidates destination now).1 := by
  have hknown : ∀ c, c ∈ (t.candidates destination now).1 ↔
      c.route.destination = destination ∧ t.Knows now c := fun c =>
    (Candidate.drawn_perm _ t.stream).mem_iff.trans (t.mem_routesTo_iff destination now c)
  refine ⟨t.nodup_candidates destination now, hknown, fun c hc => ?_,
    Candidate.nativeOrder_pairwise _⟩
  obtain ⟨-, e, hfound, -⟩ := (hknown c).1 hc
  exact (h.avoids c.route e hfound).nextHop

end OnDemand

/-- A table that a node may come to have lists, under any stream, each candidate for a destination
once, none of them over the node itself, and all in native order; an on-demand cache lists those that
are alive. The list does not depend on the stream where no two candidates tie. -/
theorem Candidate.listed_candidates (home destination : NodeId) (now : Millis) :
    (∀ t : DistanceVector, t.Reached home →
      (∀ stream, Listed t.Knows home destination
        (DistanceVector.candidates { t with stream } destination).1) ∧
      (Untied t.Knows destination → ∀ s s',
        (DistanceVector.candidates { t with stream := s } destination).1 =
          (DistanceVector.candidates { t with stream := s' } destination).1)) ∧
    ∀ t : OnDemand, t.Reached home →
      (∀ stream, Listed (t.Knows now) home destination
        (OnDemand.candidates { t with stream } destination now).1) ∧
      (Untied (t.Knows now) destination → ∀ s s',
        (OnDemand.candidates { t with stream := s } destination now).1 =
          (OnDemand.candidates { t with stream := s' } destination now).1) := by
  refine ⟨fun t ht => ?_, fun t ht => ?_⟩
  · have hlisted : ∀ stream, Listed t.Knows home destination
        (DistanceVector.candidates { t with stream } destination).1 := fun stream =>
      (ht.streamed stream).listed destination
    exact ⟨hlisted, fun huntied s s' => (hlisted s).unique (hlisted s') huntied⟩
  · have hlisted : ∀ stream, Listed (t.Knows now) home destination
        (OnDemand.candidates { t with stream } destination now).1 := fun stream =>
      (ht.streamed stream).listed destination now
    exact ⟨hlisted, fun huntied s s' => (hlisted s).unique (hlisted s') huntied⟩

/-- A table that knows of one destination from two neighbours, one of them nearer to it. -/
def DistanceVector.forked : DistanceVector :=
  ((ofNode ⟨1⟩ 10).hear (.advertisement ⟨2⟩ ⟨9⟩ 2 4 0)).hear (.advertisement ⟨3⟩ ⟨9⟩ 0 4 0)

/-- A cache that has got two replies about one destination, the later of them the newer one. -/
def OnDemand.forked : OnDemand :=
  (((ofNode ⟨1⟩ 10 5).apply (.reply ⟨2⟩ ⟨9⟩ 2 7 0)).2.apply (.reply ⟨3⟩ ⟨9⟩ 4 8 5)).2

/-- The nearer neighbour comes first under every stream, and so does the newer reply. The older reply
is still listed at its last instant. -/
theorem Candidate.listed_candidates_forked :
    DistanceVector.forked.Reached ⟨1⟩ ∧ Untied DistanceVector.forked.Knows ⟨9⟩ ∧
      OnDemand.forked.Reached ⟨1⟩ ∧ Untied (OnDemand.forked.Knows 10) ⟨9⟩ ∧
      (∀ stream, (DistanceVector.candidates { DistanceVector.forked with stream } ⟨9⟩).1 =
        [⟨⟨⟨9⟩, ⟨3⟩⟩, 1, 4⟩, ⟨⟨⟨9⟩, ⟨2⟩⟩, 3, 4⟩]) ∧
      ∀ stream, (OnDemand.candidates { OnDemand.forked with stream } ⟨9⟩ 10).1 =
        [⟨⟨⟨9⟩, ⟨3⟩⟩, 4, 8⟩, ⟨⟨⟨9⟩, ⟨2⟩⟩, 2, 7⟩] := by
  have hproactive : DistanceVector.forked.Reached ⟨1⟩ := .heard (.heard (.start 10) _) _
  have hreactive : OnDemand.forked.Reached ⟨1⟩ := .called (.called (.start 10 5) _) _
  have hnear : Untied DistanceVector.forked.Knows ⟨9⟩ :=
    .of_mem (DistanceVector.forked.mem_routesTo_iff ⟨9⟩) (by decide)
  have hnew : Untied (OnDemand.forked.Knows 10) ⟨9⟩ :=
    .of_mem (OnDemand.forked.mem_routesTo_iff ⟨9⟩ 10) (by decide)
  obtain ⟨hp, hr⟩ := listed_candidates ⟨1⟩ ⟨9⟩ 10
  refine ⟨hproactive, hnear, hreactive, hnew, fun stream => ?_, fun stream => ?_⟩
  · rw [(hp _ hproactive).2 hnear stream DistanceVector.forked.stream]
    have hfound : DistanceVector.routesTo { DistanceVector.forked with } ⟨9⟩ =
        [⟨⟨⟨9⟩, ⟨2⟩⟩, 3, 4⟩, ⟨⟨⟨9⟩, ⟨3⟩⟩, 1, 4⟩] := rfl
    simp [DistanceVector.candidates, hfound, RandomStream.wordsFor, nativeOrder, List.mergeSort,
      mayPrecede]
  · rw [(hr _ hreactive).2 hnew stream OnDemand.forked.stream]
    have hfound : OnDemand.routesTo { OnDemand.forked with } ⟨9⟩ 10 =
        [⟨⟨⟨9⟩, ⟨2⟩⟩, 2, 7⟩, ⟨⟨⟨9⟩, ⟨3⟩⟩, 4, 8⟩] := rfl
    simp [OnDemand.candidates, hfound, RandomStream.wordsFor, nativeOrder, List.mergeSort,
      mayPrecede]

end KeyReserve
