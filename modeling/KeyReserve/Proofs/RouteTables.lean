import KeyReserve.Proofs.Advertisements
import KeyReserve.Proofs.ExpiredRoutes

/-!
# Route tables in use

A table starts without routes. It is told of routes and asked for them, links that go down take
routes out, and a purge takes out those that have expired. Whatever becomes of a table in this way,
none of its routes leads to its own node, or over it.

## Main definitions

* `DistanceVector.Reached`, `OnDemand.Reached`: the tables that a node may come to have;
* `Route.Avoids`: a route that neither leads to a node nor over it.

## Main results

* `DistanceVector.Reached.avoids`, `OnDemand.Reached.avoids`: all routes avoid the node of a table.
-/

namespace KeyReserve

/-- A route neither leads to a node nor over it. -/
structure Route.Avoids (r : Route) (node : NodeId) : Prop where
  destination : r.destination ≠ node
  nextHop : r.nextHop ≠ node

namespace Table

variable {ν : Type} {home : NodeId} {routes : Table Route ν}

/-- All routes of a table avoid a node. -/
def Avoid (routes : Table Route ν) (home : NodeId) : Prop :=
  ∀ r e, routes.find? r = some e → r.Avoids home

theorem Avoid.empty : Avoid (.empty : Table Route ν) home := by
  intro r e he
  cases he

theorem Avoid.insert (h : routes.Avoid home) {route : Route} (hroute : route.Avoids home) (e : ν) :
    (routes.insert route e).Avoid home := by
  intro r f hf
  rw [find?_insert] at hf
  split at hf
  · rename_i heq
    exact heq ▸ hroute
  · exact h r f hf

theorem Avoid.filter (h : routes.Avoid home) (p : Route → ν → Bool) :
    (routes.filter p).Avoid home := by
  intro r e he
  rw [find?_filter, Option.filter_eq_some_iff] at he
  exact h r e he.1

end Table

theorem Route.avoids_of_not {r : Route} {node : NodeId}
    (h : ¬(r.destination = node || r.nextHop = node) = true) : r.Avoids node := by
  simp only [Bool.or_eq_true, decide_eq_true_eq, not_or] at h
  exact ⟨h.1, h.2⟩

/-! ## The proactive protocol -/

namespace DistanceVector

/-- A table that a node may come to have. Whoever runs the node gives it a random stream. -/
inductive Reached (home : NodeId) : DistanceVector → Prop where
  | start (maxJitter : Millis) : Reached home (ofNode home maxJitter)
  | heard {t : DistanceVector} (h : Reached home t) (n : Notice) : Reached home (t.hear n)
  | lookedUp {t : DistanceVector} (h : Reached home t) (destination : NodeId) :
      Reached home (t.candidates destination).2
  | jittered {t : DistanceVector} (h : Reached home t) : Reached home t.updateJitter.2
  | nextHopRemoved {t : DistanceVector} (h : Reached home t) (hop : NodeId) :
      Reached home (t.removeNextHop hop).2
  | streamed {t : DistanceVector} (h : Reached home t) (stream : RandomStream) :
      Reached home { t with stream }

variable {home : NodeId} {t : DistanceVector}

/-- A route that is not taken in changes nothing, and one that is avoids the node of the table. -/
theorem learn_cases (t : DistanceVector) (route : Route) (hops : UInt8) (seq : UInt32)
    (now : Millis) :
    (t.learn route hops seq now).2 = t ∨
      route.Avoids t.home ∧
        (t.learn route hops seq now).2 =
          { t with routes := t.routes.insert route ⟨hops, seq, now⟩ } := by
  unfold learn
  split
  · exact .inl rfl
  · rename_i hself
    split
    · exact .inr ⟨Route.avoids_of_not hself, rfl⟩
    · exact .inl rfl

theorem Reached.home_eq (h : Reached home t) : t.home = home := by
  induction h with
  | start _ => rfl
  | heard _ n ih =>
    rw [hear_eq, (learn_settings _ _ _ _ _).1]
    exact ih
  | lookedUp _ _ ih => exact ih
  | jittered _ ih => exact ih
  | nextHopRemoved _ _ ih => exact ih
  | streamed _ _ ih => exact ih

theorem Reached.avoids (h : Reached home t) : t.routes.Avoid home := by
  induction h with
  | start _ => exact .empty
  | @heard t h n ih =>
    rw [hear_eq]
    obtain hsame | ⟨hroute, hnew⟩ := t.learn_cases n.route n.standing.hops n.standing.seq n.time
    · rwa [hsame]
    · rw [h.home_eq] at hroute
      rw [hnew]
      exact ih.insert hroute _
  | lookedUp _ _ ih => exact ih
  | jittered _ ih => exact ih
  | nextHopRemoved _ _ ih => exact ih.filter _
  | streamed _ _ ih => exact ih

end DistanceVector

/-! ## The reactive protocol -/

namespace OnDemand

/-- A cache that a node may come to have. -/
inductive Reached (home : NodeId) : OnDemand → Prop where
  | start (lifetime maxJitter : Millis) : Reached home (ofNode home lifetime maxJitter)
  | called {t : OnDemand} (h : Reached home t) (c : Call) : Reached home (t.apply c).2
  | streamed {t : OnDemand} (h : Reached home t) (stream : RandomStream) :
      Reached home { t with stream }

variable {home : NodeId} {t : OnDemand}

/-- A reply that is not taken in changes nothing, and one that is is about a route that avoids the
node of the cache. -/
theorem onRouteReply_cases (t : OnDemand) (nextHop destination : NodeId) (hops : UInt8)
    (seq : UInt32) (now : Millis) :
    (t.onRouteReply nextHop destination hops seq now).2 = t ∨
      Route.Avoids ⟨destination, nextHop⟩ t.home ∧
        (t.onRouteReply nextHop destination hops seq now).2 =
          { t with
            routes := t.routes.insert ⟨destination, nextHop⟩
              ⟨hops, seq, now.addSat t.lifetime⟩ } := by
  unfold onRouteReply
  split
  · exact .inl rfl
  · rename_i hself
    simp only
    split
    · exact .inr ⟨Route.avoids_of_not hself, rfl⟩
    · exact .inl rfl

theorem home_apply (t : OnDemand) (c : Call) : (t.apply c).2.home = t.home := by
  cases c with
  | reply nextHop destination hops seq now =>
    exact (t.onRouteReply_settings nextHop destination hops seq now).1
  | lookUp destination now => rfl
  | request destination now => exact (t.request_settings destination now).1
  | removeNextHop nextHop => rfl
  | purge now => rfl

theorem routes_request (t : OnDemand) (destination : NodeId) (now : Millis) :
    (t.request destination now).2.routes = t.routes := by
  unfold request
  split <;> rfl

theorem Reached.home_eq (h : Reached home t) : t.home = home := by
  induction h with
  | start _ _ => rfl
  | called _ c ih => exact (home_apply _ c).trans ih
  | streamed _ _ ih => exact ih

theorem Reached.avoids (h : Reached home t) : t.routes.Avoid home := by
  induction h with
  | start _ _ => exact .empty
  | @called t h c ih =>
    cases c with
    | reply nextHop destination hops seq now =>
      show (t.onRouteReply nextHop destination hops seq now).2.routes.Avoid home
      obtain hsame | ⟨hroute, hnew⟩ := t.onRouteReply_cases nextHop destination hops seq now
      · rwa [hsame]
      · rw [h.home_eq] at hroute
        rw [hnew]
        exact ih.insert hroute _
    | lookUp destination now => exact ih
    | request destination now =>
      show (t.request destination now).2.routes.Avoid home
      rwa [routes_request]
    | removeNextHop nextHop => exact ih.filter _
    | purge now => exact ih.filter _
  | streamed _ _ ih => exact ih

end OnDemand

end KeyReserve
