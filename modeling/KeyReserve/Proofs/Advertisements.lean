import KeyReserve.Proofs.Settings
import Mathlib.Data.List.Induction

/-!
# The order of advertisements

A distance-vector table keeps the best that it has been told of each route: the greatest sequence
number, and with that number the fewest hops. The best of several does not depend on their order, so
two tables that were told the same in different orders offer the same candidates.

## Main definitions

* `DistanceVector.Notice`, `DistanceVector.hearAll`: what a table is told of routes, and the table
  once it has been told;
* `DistanceVector.offers`: what a table has known of a route before and is told of it;
* `DistanceVector.Best`: what is best among that.

## Main results

* `DistanceVector.best_hearAll`: a table knows of each route the best that it was offered;
* `DistanceVector.hearAll_perm`: the order of what a table is told does not matter.
-/

namespace KeyReserve

namespace DistanceVector

/-- With how many hops, and under which sequence number, a route is known or told of. -/
structure Standing where
  hops : UInt8
  seq : UInt32
  deriving DecidableEq

def Entry.standing (e : Entry) : Standing := ⟨e.hops, e.seq⟩

/-- What a table knows of a route, its time apart. -/
def standing? (t : DistanceVector) (route : Route) : Option Standing :=
  (t.routes.find? route).map Entry.standing

/-- What a table is told of a route. -/
inductive Notice where
  | neighbor (node : NodeId) (seq : UInt32) (now : Millis)
  | advertisement (sender destination : NodeId) (hops : UInt8) (seq : UInt32) (now : Millis)

/-- The route that a notice is about. -/
def Notice.route : Notice → Route
  | .neighbor node _ _ => ⟨node, node⟩
  | .advertisement sender destination _ _ _ => ⟨destination, sender⟩

/-- What a notice says of its route. A neighbour is one hop away, and over a neighbour it is one hop
more than for it, where 255 stands for all greater numbers. -/
def Notice.standing : Notice → Standing
  | .neighbor _ seq _ => ⟨1, seq⟩
  | .advertisement _ _ hops seq _ => ⟨.ofNat (min (hops.toNat + 1) 255), seq⟩

def Notice.time : Notice → Millis
  | .neighbor _ _ now => now
  | .advertisement _ _ _ _ now => now

/-- The table once it has been told something. -/
def hear (t : DistanceVector) : Notice → DistanceVector
  | .neighbor node seq now => (t.addNeighbor node seq now).2
  | .advertisement sender destination hops seq now =>
    (t.onAdvertisement sender destination hops seq now).2

/-- The table once it has been told several things in a row. -/
def hearAll (t : DistanceVector) (ns : List Notice) : DistanceVector := ns.foldl hear t

/-- Whether a route neither leads to the node of the table nor back over it. -/
def admits (t : DistanceVector) (route : Route) : Bool :=
  route.destination ≠ t.home && route.nextHop ≠ t.home

/-- What a table has known of a route before, and what it is told of it. -/
def offers (t : DistanceVector) (ns : List Notice) (route : Route) : List Standing :=
  (t.standing? route).toList ++
    (ns.filter fun n => n.route = route && t.admits route).map Notice.standing

/-- The best of what there is of a route, if there is anything: no sequence number is greater, and
with that number there are nowhere fewer hops. -/
inductive Best (os : List Standing) : Option Standing → Prop
  | nothing (hnil : os = []) : Best os none
  | best {s : Standing} (hmem : s ∈ os) (hseq : ∀ o ∈ os, o.seq ≤ s.seq)
      (hhops : ∀ o ∈ os, o.seq = s.seq → s.hops ≤ o.hops) : Best os (some s)

/-- The candidates that lookups in a row find. -/
def lookUps (t : DistanceVector) : List NodeId → List (List Candidate)
  | [] => []
  | d :: ds => (t.candidates d).1 :: (t.candidates d).2.lookUps ds

variable (t : DistanceVector)

/-! ## The best of several -/

/-- What yields has a smaller sequence number, or the same and more hops. -/
theorem Entry.yieldsTo_iff {e : Entry} {hops : UInt8} {seq : UInt32} :
    e.yieldsTo hops seq = true ↔ e.seq ≤ seq ∧ (e.seq = seq → hops < e.hops) := by
  simp only [yieldsTo, Bool.or_eq_true, Bool.and_eq_true, decide_eq_true_eq]
  grind

theorem Entry.not_yieldsTo_iff {e : Entry} {hops : UInt8} {seq : UInt32} :
    ¬e.yieldsTo hops seq = true ↔ seq ≤ e.seq ∧ (seq = e.seq → e.hops ≤ hops) := by
  simp only [yieldsTo, Bool.or_eq_true, Bool.and_eq_true, decide_eq_true_eq]
  grind

namespace Best

variable {os ps : List Standing}

/-- Only what there is matters, and neither its order nor how often it is there. -/
theorem unique {b c : Option Standing} (hb : Best os b) (hc : Best ps c)
    (hmem : ∀ o, o ∈ os ↔ o ∈ ps) : b = c := by
  cases hb with
  | nothing hnil =>
    cases hc with
    | nothing _ => rfl
    | best hs _ _ =>
      rw [← hmem, hnil] at hs
      cases hs
  | @best s hs hseq hhops =>
    cases hc with
    | nothing hnil =>
      rw [hmem, hnil] at hs
      cases hs
    | @best s' hs' hseq' hhops' =>
      have hs_ps := (hmem s).1 hs
      have hs'_os := (hmem s').2 hs'
      have heq : s.seq = s'.seq := UInt32.le_antisymm (hseq' s hs_ps) (hseq s' hs'_os)
      have hle : s.hops = s'.hops :=
        UInt8.le_antisymm (hhops s' hs'_os heq.symm) (hhops' s hs_ps heq)
      obtain ⟨hops, seq⟩ := s
      cases heq
      cases hle
      rfl

/-- One more offer is the best where what has been best yields to it, and changes nothing where that
does not yield. -/
theorem concat {b : Option Entry} (h : Best os (b.map Entry.standing)) (o : Standing) :
    Best (os ++ [o])
      (if b.all (·.yieldsTo o.hops o.seq) then some o else b.map Entry.standing) := by
  cases b with
  | none =>
    cases h with
    | nothing hnil => subst hnil; exact .best (by simp) (by simp) (by simp)
  | some e =>
    cases h with
    | best hmem hseq hhops =>
      show Best (os ++ [o]) (if e.yieldsTo o.hops o.seq then some o else some e.standing)
      split
      · rename_i hyields
        obtain ⟨hnewer, hshorter⟩ := e.yieldsTo_iff.1 hyields
        refine .best (by simp) (List.forall_mem_append.2 ⟨?_, by simp⟩)
          (List.forall_mem_append.2 ⟨?_, by simp⟩)
        · exact fun p hp => UInt32.le_trans (hseq p hp) hnewer
        · intro p hp heq
          have hsame : p.seq = e.seq := UInt32.le_antisymm (hseq p hp) (heq ▸ hnewer)
          exact UInt8.le_trans (UInt8.le_of_lt (hshorter (hsame.symm.trans heq))) (hhops p hp hsame)
      · rename_i hkeeps
        obtain ⟨holder, hlonger⟩ := e.not_yieldsTo_iff.1 hkeeps
        refine .best (List.mem_append_left _ hmem) (List.forall_mem_append.2 ⟨hseq, ?_⟩)
          (List.forall_mem_append.2 ⟨hhops, ?_⟩)
        · exact List.forall_mem_singleton.2 holder
        · exact List.forall_mem_singleton.2 hlonger

end Best

/-! ## What a table knows -/

theorem hear_eq (n : Notice) :
    t.hear n = (t.learn n.route n.standing.hops n.standing.seq n.time).2 := by
  cases n with
  | neighbor node seq now => rfl
  | advertisement sender destination hops seq now =>
    simp only [hear, onAdvertisement, UInt8.succSat_eq]
    rfl

theorem admits_hearAll (ns : List Notice) (route : Route) :
    (t.hearAll ns).admits route = t.admits route := by
  have hhome : (t.hearAll ns).home = t.home := by
    induction ns generalizing t with
    | nil => rfl
    | cons n ns ih =>
      refine (ih (t.hear n)).trans ?_
      rw [hear_eq]
      exact (t.learn_settings _ _ _ _).1
  simp only [admits, hhome]

/-- A notice bears on its own route only, where that is admitted: it takes the place of what yields
to it. -/
theorem standing?_hear (n : Notice) (route : Route) :
    (t.hear n).standing? route =
      if n.route = route && t.admits route then
        if (t.routes.find? route).all (·.yieldsTo n.standing.hops n.standing.seq) then
          some n.standing
        else t.standing? route
      else t.standing? route := by
  rw [hear_eq]
  by_cases hroute : n.route = route
  · subst hroute
    simp only [decide_true, Bool.true_and]
    unfold learn
    by_cases hadmits : t.admits n.route = true
    · have hself : ¬(n.route.destination = t.home || n.route.nextHop = t.home) = true := by
        simpa [admits] using hadmits
      rw [if_neg hself, if_pos hadmits]
      split
      · simp only [standing?, Table.find?_insert, if_true]
        rfl
      · rfl
    · have hself : (n.route.destination = t.home || n.route.nextHop = t.home) = true := by
        simpa [admits, or_iff_not_imp_left] using hadmits
      rw [if_pos hself, if_neg hadmits]
  · simp only [hroute, decide_false, Bool.false_and, Bool.false_eq_true, if_false]
    unfold learn
    split
    · rfl
    · split
      · simp only [standing?, Table.find?_insert, if_neg (Ne.symm hroute)]
      · rfl

theorem offers_concat (ns : List Notice) (n : Notice) (route : Route) :
    t.offers (ns ++ [n]) route =
      t.offers ns route ++ if n.route = route && t.admits route then [n.standing] else [] := by
  simp only [offers, List.filter_append, List.map_append, List.append_assoc]
  congr 2
  cases h : decide (n.route = route) && t.admits route <;> simp [h]

/-- Whatever a table is told, in whatever order, it knows of each route the best of what it has
known before and has been told. -/
theorem best_hearAll (ns : List Notice) (route : Route) :
    Best (t.offers ns route) ((t.hearAll ns).standing? route) := by
  induction ns using List.reverseRecOn with
  | nil =>
    show Best (t.offers [] route) (t.standing? route)
    cases h : t.standing? route with
    | none => exact .nothing (by simp [offers, h])
    | some s => exact .best (by simp [offers, h]) (by simp [offers, h]) (by simp [offers, h])
  | append_singleton ns n ih =>
    have hstep : t.hearAll (ns ++ [n]) = (t.hearAll ns).hear n := List.foldl_append
    rw [hstep, standing?_hear, offers_concat, admits_hearAll]
    split
    · exact ih.concat n.standing
    · rwa [List.append_nil]

/-! ## What a table offers -/

/-- The routes that a lookup finds are told by what the table knows of each. -/
theorem routesTo_eq (destination : NodeId) :
    t.routesTo destination =
      ((t.routes.mapValues Entry.standing).entries.filter (·.1.destination = destination)).map
        fun e => ⟨e.1, e.2.hops, e.2.seq⟩ := by
  simp only [routesTo, Table.mapValues, List.filter_map, List.map_map]
  rfl

theorem lookUps_congr {t u : DistanceVector} (hstream : t.stream = u.stream)
    (hknown : ∀ route, t.standing? route = u.standing? route) (ds : List NodeId) :
    t.lookUps ds = u.lookUps ds := by
  have htable : t.routes.mapValues Entry.standing = u.routes.mapValues Entry.standing :=
    Table.ext_find? fun route => by
      rw [Table.find?_mapValues, Table.find?_mapValues]
      exact hknown route
  induction ds generalizing t u with
  | nil => rfl
  | cons d ds ih =>
    have hroutes : t.routesTo d = u.routesTo d := by rw [routesTo_eq, routesTo_eq, htable]
    simp only [lookUps, candidates, hroutes, hstream]
    exact congrArg _ (ih rfl hknown htable)

/-- A table that is told the same things in two orders knows the same of every route both times: the
best of what it has known before and has been told. With the same random stream it then finds the
same candidates in the same order, at each of the lookups that follow. -/
theorem hearAll_perm {ns ms : List Notice} (h : ns.Perm ms) :
    (∀ route, (t.hearAll ns).standing? route = (t.hearAll ms).standing? route ∧
        Best (t.offers ns route) ((t.hearAll ns).standing? route)) ∧
      ∀ stream ds,
        lookUps { t.hearAll ns with stream } ds = lookUps { t.hearAll ms with stream } ds := by
  have hknown : ∀ route, (t.hearAll ns).standing? route = (t.hearAll ms).standing? route := by
    intro route
    refine (t.best_hearAll ns route).unique (t.best_hearAll ms route) fun o => ?_
    exact (((h.filter _).map _).append_left _).mem_iff
  exact ⟨fun route => ⟨hknown route, t.best_hearAll ns route⟩,
    fun stream => lookUps_congr (t := { t.hearAll ns with stream }) rfl hknown⟩

/-- Two neighbours tell of one destination, one of them from as far as can be said, and the node
itself is told of. -/
def Notice.hearsay : List Notice :=
  [.advertisement ⟨2⟩ ⟨9⟩ 255 4 0, .advertisement ⟨3⟩ ⟨9⟩ 1 4 1, .advertisement ⟨2⟩ ⟨9⟩ 254 4 2,
    .neighbor ⟨2⟩ 0 3, .advertisement ⟨2⟩ ⟨1⟩ 0 9 4, .advertisement ⟨3⟩ ⟨9⟩ 7 3 5]

theorem hearAll_perm_reverse :
    Notice.hearsay.Perm Notice.hearsay.reverse ∧
      (∀ route,
        ((ofNode ⟨1⟩ 10).hearAll Notice.hearsay).standing? route =
            ((ofNode ⟨1⟩ 10).hearAll Notice.hearsay.reverse).standing? route ∧
          Best ((ofNode ⟨1⟩ 10).offers Notice.hearsay route)
            (((ofNode ⟨1⟩ 10).hearAll Notice.hearsay).standing? route)) ∧
      (∀ stream ds,
        lookUps { (ofNode ⟨1⟩ 10).hearAll Notice.hearsay with stream } ds =
          lookUps { (ofNode ⟨1⟩ 10).hearAll Notice.hearsay.reverse with stream } ds) ∧
      ((ofNode ⟨1⟩ 10).hearAll Notice.hearsay).standing? ⟨⟨9⟩, ⟨2⟩⟩ = some ⟨255, 4⟩ :=
  have hperm := Notice.hearsay.reverse_perm.symm
  ⟨hperm, (hearAll_perm _ hperm).1, (hearAll_perm _ hperm).2, by decide⟩

end DistanceVector

end KeyReserve
