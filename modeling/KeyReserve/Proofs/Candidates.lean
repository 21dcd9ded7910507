import KeyReserve.Routing.Protocols

/-!
# Candidates

The candidates for a destination lead over different next hops, each of them once: a table has one
entry for each destination and next hop, and the native order only arranges what is there.

## Main results

* `Candidate.nativeOrder_perm`: the native order arranges the candidates it is given;
* `Protocols.nodup_candidates`: no two candidates lead over one next hop;
* `Protocols.nextHop_ne_of_candidates`: none leads over a next hop of no known route.
-/

namespace KeyReserve

theorem Candidate.nativeOrder_perm (drawn : List (Candidate × UInt32)) :
    (nativeOrder drawn).Perm (drawn.map (·.1)) :=
  (List.mergeSort_perm drawn mayPrecede).map _

/-- Entries of one destination differ in their next hops. -/
theorem Route.nodup_nextHops {ν : Type} (t : Table Route ν) (destination : NodeId)
    {p : Route × ν → Bool} (hp : ∀ e, p e = true → e.1.destination = destination) :
    ((t.entries.filter p).map (·.1.nextHop)).Nodup := by
  have hasc := t.ascending.filter p
  rw [List.Nodup, List.pairwise_map]
  refine hasc.imp_of_mem ?_
  intro e f he hf hlt heq
  have hroute : e.1 = f.1 := by
    have hd : e.1.destination = f.1.destination :=
      (hp e (List.mem_filter.1 he).2).trans (hp f (List.mem_filter.1 hf).2).symm
    obtain ⟨⟨d, h⟩, x⟩ := e
    obtain ⟨⟨d', h'⟩, y⟩ := f
    cases hd
    cases heq
    rfl
  rw [hroute] at hlt
  exact Nat.lt_irrefl _ hlt

/-- Draws and the order made with them leave the candidates as they are. -/
theorem Candidate.drawn_perm (found : List Candidate) (s : RandomStream) :
    (nativeOrder (RandomStream.wordsFor found s).1).Perm found := by
  have hperm := nativeOrder_perm (RandomStream.wordsFor found s).1
  rwa [RandomStream.map_fst_wordsFor] at hperm

theorem Candidate.nodup_drawn {found : List Candidate} (h : (found.map (·.nextHop)).Nodup)
    (s : RandomStream) :
    ((nativeOrder (RandomStream.wordsFor found s).1).map (·.nextHop)).Nodup :=
  ((drawn_perm found s).map _).nodup_iff.2 h

theorem DistanceVector.nodup_candidates (t : DistanceVector) (destination : NodeId) :
    ((t.candidates destination).1.map (·.nextHop)).Nodup := by
  refine Candidate.nodup_drawn ?_ t.stream
  rw [routesTo, List.map_map]
  exact Route.nodup_nextHops t.routes destination fun e he => by simpa using he

theorem OnDemand.nodup_candidates (t : OnDemand) (destination : NodeId) (now : Millis) :
    ((t.candidates destination now).1.map (·.nextHop)).Nodup := by
  refine Candidate.nodup_drawn ?_ t.stream
  rw [routesTo, List.map_map]
  exact Route.nodup_nextHops t.routes destination fun e he => by
    simp only [Bool.and_eq_true, decide_eq_true_eq] at he
    exact he.1

/-- A candidate has an entry in the table. -/
theorem DistanceVector.exists_entry_of_candidates {t : DistanceVector} {destination : NodeId}
    {c : Candidate} (h : c ∈ (t.candidates destination).1) :
    ∃ e, t.routes.find? c.route = some e := by
  have hfound : c ∈ t.routesTo destination := (Candidate.drawn_perm _ t.stream).mem_iff.1 h
  obtain ⟨e, he, rfl⟩ := List.mem_map.1 hfound
  exact ⟨e.2, Table.mem_entries_iff.1 (List.mem_filter.1 he).1⟩

theorem OnDemand.exists_entry_of_candidates {t : OnDemand} {destination : NodeId} {now : Millis}
    {c : Candidate} (h : c ∈ (t.candidates destination now).1) :
    ∃ e, t.routes.find? c.route = some e := by
  have hfound : c ∈ t.routesTo destination now := (Candidate.drawn_perm _ t.stream).mem_iff.1 h
  obtain ⟨e, he, rfl⟩ := List.mem_map.1 hfound
  exact ⟨e.2, Table.mem_entries_iff.1 (List.mem_filter.1 he).1⟩

/-- A next hop over which no protocol knows a route is the next hop of no candidate. -/
theorem Protocols.nextHop_ne_of_candidates {p q : Protocols} {role : Role} {destination : NodeId}
    {now : Millis} {cs : List Candidate} (h : p.candidates role destination now = .ok (cs, q))
    {hop : NodeId}
    (hproactive : ∀ t, p.proactive = some t → ∀ r e, t.routes.find? r = some e → r.nextHop ≠ hop)
    (hreactive : ∀ t, p.reactive = some t → ∀ r e, t.routes.find? r = some e → r.nextHop ≠ hop)
    {c : Candidate} (hc : c ∈ cs) : c.nextHop ≠ hop := by
  cases role <;> simp only [candidates] at h <;> split at h <;> cases h
  · rename_i t ht
    obtain ⟨e, he⟩ := DistanceVector.exists_entry_of_candidates hc
    exact hproactive t ht c.route e he
  · rename_i t ht
    obtain ⟨e, he⟩ := OnDemand.exists_entry_of_candidates hc
    exact hreactive t ht c.route e he

theorem Protocols.nodup_candidates {p q : Protocols} {role : Role} {destination : NodeId}
    {now : Millis} {cs : List Candidate} (h : p.candidates role destination now = .ok (cs, q)) :
    (cs.map (·.nextHop)).Nodup := by
  cases role <;> simp only [candidates] at h <;> split at h <;> cases h
  · exact DistanceVector.nodup_candidates _ destination
  · exact OnDemand.nodup_candidates _ destination now

end KeyReserve
