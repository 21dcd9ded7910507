import KeyReserve.Routing.Directory
import Mathlib.Data.List.Nodup

/-!
# Routes in a directory

A directory tells what a plain table of its routes tells. Routes that are taken in, and routes that
a sweep takes out, come and go in both alike, and a sweep counts as many as the plain table loses.
While no destination is without a route, there are as many destinations as the routes lead to.

## Main definitions

* `Directory.flat`: the plain table of the routes in a directory;
* `Directory.Occupied`: each destination in a directory has a route.

## Main results

* `Directory.flat_take`, `Directory.flat_sweep`: taking in and taking out;
* `Directory.Occupied.take`, `Directory.occupied_sweep`: no destination is left without a route;
* `Directory.Occupied.size_eq`: how many destinations there are.
-/

namespace KeyReserve

namespace Table

variable {κ ν : Type} [Ranked κ]

/-- A test splits the entries in two. -/
theorem size_filter_add (t : Table κ ν) (p : κ → ν → Bool) :
    (t.filter p).size + (t.filter fun k v => !p k v).size = t.size :=
  (List.length_eq_length_filter_add _).symm

theorem isEmpty_eq_false_iff {t : Table κ ν} : t.isEmpty = false ↔ ∃ k v, t.find? k = some v := by
  simp only [isEmpty, List.isEmpty_eq_false_iff_exists_mem, Prod.exists, find?_eq_some_iff]

theorem nodup_keys (t : Table κ ν) : t.keys.Nodup := by
  refine t.keys_pairwise.imp ?_
  rintro k _ hlt rfl
  exact Nat.lt_irrefl _ hlt

variable [DecidableEq κ]

theorem erase_eq_filter (t : Table κ ν) (k : κ) : t.erase k = t.filter fun j _ => j ≠ k := by
  refine ext_find? fun j => ?_
  rw [find?_erase, find?_filter]
  by_cases h : j = k <;> cases t.find? j <;> simp [h, Option.filter]

/-- Under a key there is one entry, or none. -/
theorem size_filter_key (t : Table κ ν) (k : κ) :
    (t.filter fun j _ => j = k).size = if t.contains k then 1 else 0 := by
  have hone : (t.filter fun j _ => j = k) = (t.find? k).elim .empty (empty.insert k) := by
    refine ext_find? fun j => ?_
    rw [find?_filter]
    by_cases h : j = k
    · subst h
      cases t.find? j <;> simp [find?_empty, find?_insert, Option.filter]
    · cases t.find? k <;> cases t.find? j <;> simp [h, find?_empty, find?_insert, Option.filter]
  rw [hone, contains]
  cases t.find? k <;> rfl

end Table

namespace Route

theorem mem_destinations {rs : List Route} {x : NodeId} :
    x ∈ destinations rs ↔ ∃ r ∈ rs, r.destination = x := by
  induction rs with
  | nil => simp [destinations]
  | cons r rs ih =>
    rw [List.exists_mem_cons_iff, destinations]
    split
    · rename_i hknown
      rw [ih]
      refine (or_iff_right_of_imp ?_).symm
      rintro rfl
      simpa using hknown
    · rw [List.mem_cons, ih, @eq_comm _ x]

theorem nodup_destinations (rs : List Route) : (destinations rs).Nodup := by
  induction rs with
  | nil => exact .nil
  | cons r rs ih =>
    rw [destinations]
    split
    · exact ih
    · rename_i hnew
      refine List.nodup_cons.2 ⟨fun hmem => hnew ?_, ih⟩
      simpa using mem_destinations.1 hmem

end Route

namespace Directory

variable {ν : Type} (d : Directory ν)

/-- The entry for a route. -/
def entry? (r : Route) : Option ν := (d.toward r.destination).find? r.nextHop

/-- The routes to a destination with their entries. -/
def line (e : NodeId × Table NodeId ν) : List (Route × ν) :=
  e.2.entries.map fun f => (⟨e.1, f.1⟩, f.2)

theorem mem_line {e : NodeId × Table NodeId ν} {x : Route × ν} :
    x ∈ line e ↔ x.1.destination = e.1 ∧ (x.1.nextHop, x.2) ∈ e.2.entries := by
  obtain ⟨⟨destination, hop⟩, entry⟩ := x
  simp only [line, List.mem_map, Prod.mk.injEq, Route.mk.injEq]
  constructor
  · rintro ⟨⟨_, _⟩, hf, ⟨rfl, rfl⟩, rfl⟩
    exact ⟨rfl, hf⟩
  · rintro ⟨rfl, hf⟩
    exact ⟨(hop, entry), hf, ⟨rfl, rfl⟩, rfl⟩

theorem rank_lt_iff {r s : Route} : rank r < rank s ↔
    r.destination.val < s.destination.val ∨
      r.destination = s.destination ∧ r.nextHop.val < s.nextHop.val :=
  NodeId.pairRank_lt_iff

theorem pairwise_flatMap_line :
    (d.entries.flatMap line).Pairwise (fun a b => rank a.1 < rank b.1) := by
  rw [List.pairwise_flatMap]
  refine ⟨fun e _ => List.pairwise_map.2 (e.2.ascending.imp fun hlt => ?_), ?_⟩
  · exact rank_lt_iff.2 (.inr ⟨rfl, UInt32.lt_iff_toNat_lt.2 hlt⟩)
  · refine d.ascending.imp fun hlt x hx y hy => rank_lt_iff.2 (.inl ?_)
    rw [(mem_line.1 hx).1, (mem_line.1 hy).1]
    exact UInt32.lt_iff_toNat_lt.2 hlt

/-- The plain table of the routes. -/
def flat : Table Route ν := ⟨d.entries.flatMap line, d.pairwise_flatMap_line⟩

variable {d}

theorem toward_eq_of_find? {x : NodeId} {routes : Table NodeId ν} (h : d.find? x = some routes) :
    d.toward x = routes := by
  rw [toward, h, Option.getD_some]

theorem find?_toward_eq_some_iff {x hop : NodeId} {e : ν} : (d.toward x).find? hop = some e ↔
    ∃ routes, d.find? x = some routes ∧ routes.find? hop = some e := by
  unfold toward
  cases d.find? x with
  | none => simp [Table.find?_empty]
  | some routes => simp

theorem find?_flat (r : Route) : d.flat.find? r = d.entry? r := by
  refine Option.ext fun e => ?_
  rw [Table.find?_eq_some_iff, entry?, find?_toward_eq_some_iff]
  simp only [flat, List.mem_flatMap, mem_line, Table.find?_eq_some_iff]
  constructor
  · rintro ⟨⟨_, routes⟩, hroutes, rfl, he⟩
    exact ⟨routes, hroutes, he⟩
  · rintro ⟨routes, hroutes, he⟩
    exact ⟨(r.destination, routes), hroutes, rfl, he⟩

/-! ## Routes taken in -/

theorem toward_insert (x y : NodeId) (routes : Table NodeId ν) :
    toward (d.insert x routes) y = if y = x then routes else d.toward y := by
  rw [toward, Table.find?_insert]
  split <;> rfl

/-- The routes to a destination stand together, by ascending next hop. -/
theorem filter_flat (x : NodeId) :
    d.flat.entries.filter (·.1.destination = x) = line (x, d.toward x) := by
  have hone : (d.flat.filter fun r _ => r.destination = x) =
      flat (Table.empty.insert x (d.toward x)) := by
    refine Table.ext_find? fun r => ?_
    rw [Table.find?_filter, find?_flat, find?_flat, entry?, entry?, toward_insert]
    by_cases h : r.destination = x
    · rw [if_pos h, h]
      cases (d.toward x).find? r.nextHop <;> simp [Option.filter]
    · rw [if_neg h]
      cases (d.toward r.destination).find? r.nextHop <;>
        simp [h, Option.filter, toward, Table.find?_empty]
  exact (congrArg Table.entries hone).trans (List.append_nil _)

/-- A place alone makes no route. -/
theorem toward_reserve (x y : NodeId) : (d.reserve x).toward y = d.toward y := by
  rw [reserve, toward_insert]
  split
  · rename_i h
    rw [h]
  · rfl

theorem take_eq (r : Route) (e : ν) (yields : ν → Bool) :
    d.take r e yields =
      if (d.flat.find? r).all yields then
        (true, (d.reserve r.destination).insert r.destination
          ((d.toward r.destination).insert r.nextHop e))
      else
        (false, d.reserve r.destination) := by
  rw [find?_flat, entry?, ← d.toward_reserve r.destination]
  rfl

theorem flat_reserve (x : NodeId) : (d.reserve x).flat = d.flat :=
  Table.ext_find? fun r => by rw [find?_flat, find?_flat, entry?, entry?, toward_reserve]

theorem flat_insert_insert (r : Route) (e : ν) :
    flat (d.insert r.destination ((d.toward r.destination).insert r.nextHop e)) =
      d.flat.insert r e := by
  refine Table.ext_find? fun s => ?_
  rw [Table.find?_insert, find?_flat, find?_flat, entry?, entry?, toward_insert]
  obtain ⟨x, hop⟩ := r
  obtain ⟨y, hop'⟩ := s
  by_cases hx : y = x
  · subst hx
    simp [Table.find?_insert]
  · simp [hx]

/-- A route is taken in by a directory as it is by the plain table. -/
theorem flat_take (r : Route) (e : ν) (yields : ν → Bool) :
    (d.take r e yields).1 = (d.flat.find? r).all yields ∧
      (d.take r e yields).2.flat =
        if (d.flat.find? r).all yields then d.flat.insert r e else d.flat := by
  rw [take_eq]
  cases h : (d.flat.find? r).all yields with
  | false => exact ⟨rfl, flat_reserve r.destination⟩
  | true =>
    refine ⟨rfl, ?_⟩
    have hinsert := (d.reserve r.destination).flat_insert_insert r e
    rwa [toward_reserve, flat_reserve] at hinsert

/-! ## Routes taken out -/

theorem visitAll_line {visit : Table NodeId ν → Nat × Table NodeId ν} {keeps : NodeId → ν → Bool}
    (h : ∀ routes, visit routes = (routes.size - (routes.filter keeps).size, routes.filter keeps))
    (es : List (NodeId × Table NodeId ν)) :
    (visitAll visit es).1 + ((es.flatMap line).filter fun x => keeps x.1.nextHop x.2).length =
        (es.flatMap line).length ∧
      (visitAll visit es).2.flatMap line =
        (es.flatMap line).filter fun x => keeps x.1.nextHop x.2 := by
  induction es with
  | nil => exact ⟨rfl, rfl⟩
  | cons e es ih =>
    obtain ⟨x, routes⟩ := e
    have hline : (line (x, routes)).filter (fun y => keeps y.1.nextHop y.2) =
        line (x, routes.filter keeps) := by
      simp only [line, List.filter_map, Table.filter]
      rfl
    have hle : (routes.filter keeps).size ≤ routes.size := List.length_filter_le _ _
    simp only [visitAll, h, List.flatMap_cons, List.filter_append, hline, List.length_append]
    constructor
    · have hlength : ∀ t : Table NodeId ν, (line (x, t)).length = t.size := fun t => by
        simp [line, Table.size]
      rw [hlength, hlength]
      omega
    · split
      · rename_i hempty
        have hnone : line (x, routes.filter keeps) = [] := by
          rw [line, List.isEmpty_iff.1 hempty, List.map_nil]
        rw [hnone, List.nil_append, ih.2]
      · rw [List.flatMap_cons, ih.2]

/-- A sweep takes the routes out that the plain table loses, and counts them. -/
theorem flat_sweep {visit : Table NodeId ν → Nat × Table NodeId ν} {keeps : NodeId → ν → Bool}
    (h : ∀ routes, visit routes = (routes.size - (routes.filter keeps).size, routes.filter keeps)) :
    (d.sweep visit).1 = d.flat.size - (d.flat.filter fun r e => keeps r.nextHop e).size ∧
      (d.sweep visit).2.flat = d.flat.filter fun r e => keeps r.nextHop e := by
  obtain ⟨hcount, hlines⟩ := visitAll_line h d.entries
  exact ⟨Nat.eq_sub_of_add_eq hcount, Table.ext_entries hlines⟩

theorem retain_eq (keeps : ν → Bool) (routes : Table NodeId ν) :
    retain keeps routes =
      (routes.size - (routes.filter fun _ => keeps).size, routes.filter fun _ => keeps) := rfl

theorem dropHop_eq (hop : NodeId) (routes : Table NodeId ν) :
    dropHop hop routes = (routes.size - (routes.filter fun k _ => k ≠ hop).size,
      routes.filter fun k _ => k ≠ hop) := by
  have hsplit := routes.size_filter_add fun k _ => decide (k = hop)
  simp only [Table.size_filter_key, ← decide_not] at hsplit
  rw [dropHop, Table.erase_eq_filter, ← hsplit, Nat.add_sub_cancel]

/-! ## Destinations -/

/-- Each destination that has a place has a route. -/
def Occupied (d : Directory ν) : Prop :=
  ∀ x routes, d.find? x = some routes → routes.isEmpty = false

theorem occupied_empty : Occupied (.empty : Directory ν) := nofun

theorem find?_reserve (x y : NodeId) :
    (d.reserve x).find? y = if y = x then some (d.toward x) else d.find? y :=
  d.find?_insert x y _

/-- A place is given to a destination for a route that is taken in, or that is refused for the sake
of what is known of the same route. -/
theorem Occupied.take (h : d.Occupied) (r : Route) (e : ν) (yields : ν → Bool) :
    (d.take r e yields).2.Occupied := by
  intro x routes hfound
  rw [take_eq] at hfound
  split at hfound
  · simp only [Table.find?_insert, find?_reserve] at hfound
    split at hfound
    · obtain rfl := Option.some.inj hfound
      refine Table.isEmpty_eq_false_iff.2 ⟨r.nextHop, e, ?_⟩
      rw [Table.find?_insert, if_pos rfl]
    · exact h x routes hfound
  · rename_i hkept
    simp only [find?_reserve] at hfound
    split at hfound
    · obtain rfl := Option.some.inj hfound
      rw [find?_flat, entry?] at hkept
      cases hold : (d.toward r.destination).find? r.nextHop with
      | none => exact absurd (by rw [hold]; rfl) hkept
      | some old => exact Table.isEmpty_eq_false_iff.2 ⟨r.nextHop, old, hold⟩
    · exact h x routes hfound

/-- A sweep drops the destinations to which it leaves no route. -/
theorem occupied_sweep (visit : Table NodeId ν → Nat × Table NodeId ν) :
    (d.sweep visit).2.Occupied := by
  have hvisited : ∀ es : List (NodeId × Table NodeId ν), ∀ e ∈ (visitAll visit es).2,
      e.2.isEmpty = false := by
    intro es
    induction es with
    | nil => exact fun e he => absurd he List.not_mem_nil
    | cons e es ih =>
      simp only [visitAll]
      split
      · exact ih
      · rename_i hleft
        exact List.forall_mem_cons.2 ⟨Bool.eq_false_iff.2 hleft, ih⟩
  exact fun x routes hfound => hvisited d.entries (x, routes) (Table.find?_eq_some_iff.1 hfound)

theorem Occupied.mem_keys_iff (h : d.Occupied) {x : NodeId} :
    x ∈ d.keys ↔ ∃ hop e, d.flat.find? ⟨x, hop⟩ = some e := by
  simp only [Table.mem_keys_iff, Option.isSome_iff_exists, find?_flat, entry?,
    find?_toward_eq_some_iff]
  constructor
  · rintro ⟨routes, hroutes⟩
    obtain ⟨hop, e, he⟩ := Table.isEmpty_eq_false_iff.1 (h x routes hroutes)
    exact ⟨hop, e, routes, hroutes, he⟩
  · rintro ⟨_, _, routes, hroutes, _⟩
    exact ⟨routes, hroutes⟩

/-- There are as many destinations as the routes lead to. -/
theorem Occupied.size_eq (h : d.Occupied) : d.size = (Route.destinations d.flat.keys).length := by
  have hperm : d.keys.Perm (Route.destinations d.flat.keys) := by
    refine (List.perm_ext_iff_of_nodup d.nodup_keys (Route.nodup_destinations _)).2 fun x => ?_
    rw [h.mem_keys_iff, Route.mem_destinations]
    simp only [Table.mem_keys_iff, Option.isSome_iff_exists]
    constructor
    · rintro ⟨hop, e, he⟩
      exact ⟨⟨x, hop⟩, ⟨e, he⟩, rfl⟩
    · rintro ⟨r, ⟨e, he⟩, rfl⟩
      exact ⟨r.nextHop, e, he⟩
  rw [← hperm.length_eq, Table.keys, List.length_map]
  rfl

end Directory

end KeyReserve
