import KeyReserve.Proofs.Directories
import KeyReserve.Proofs.RouteTables

/-!
# Stored routes

A protocol answers alike whether it keeps its routes in a directory or in a plain table, so that
what holds of the one holds of the other. Whatever a protocol is told and asked: each destination in
its directory has a route, neither a destination nor a next hop is the node itself, routes go only
where they are taken out, and as many are counted then. An entry of a distance-vector table gives
way to better ones only.

## Main definitions

* `Directory.Files`: a directory holds the routes of a plain table, and its destinations are theirs;
* `Table.Loses`: some routes are taken out and counted, and no others;
* `DistanceVector.Call`, `DistanceVector.run`: what a table is told and asked, and the table
  afterwards;
* `DistanceVector.Entry.Improved`: an entry has been kept, or replaced by better ones;
* `DistanceVector.Exact`, `OnDemand.Exact`: what holds of the routes of a protocol.

## Main results

* `DistanceVector.Filed.apply_flat`, `OnDemand.Filed.apply_flat`: directories and plain tables
  answer alike;
* `DistanceVector.improved_run`: entries improve as long as they are not taken out;
* `Directory.routes_exact`: what holds of the routes after any calls.
-/

namespace KeyReserve

namespace Table

variable {ν : Type}

/-- The routes of some kind are taken out of a table and counted, and all others stay as they
are. -/
structure Loses (routes : Table Route ν) (gone : Route → ν → Prop) (count : Nat)
    (left : Table Route ν) : Prop where
  left : ∀ r e, left.find? r = some e ↔ routes.find? r = some e ∧ ¬ gone r e
  counted : ∃ rs : List Route, rs.Nodup ∧ (∀ r, r ∈ rs ↔ ∃ e, routes.find? r = some e ∧ gone r e) ∧
    count = rs.length

theorem loses_filter (routes : Table Route ν) {keeps : Route → ν → Bool}
    {gone : Route → ν → Prop} (h : ∀ r e, keeps r e = true ↔ ¬ gone r e) :
    routes.Loses gone (routes.size - (routes.filter keeps).size) (routes.filter keeps) where
  left r e := by rw [find?_filter, Option.filter_eq_some_iff, h]
  counted := by
    refine ⟨(routes.filter fun r e => !keeps r e).keys, nodup_keys _, fun r => ?_, ?_⟩
    · rw [mem_keys_iff, find?_filter, Option.isSome_iff_exists]
      refine exists_congr fun e => ?_
      rw [Option.filter_eq_some_iff, Bool.not_eq_true', ← Bool.not_eq_true, h, not_not]
    · rw [← routes.size_filter_add keeps, Nat.add_sub_cancel_left, keys, List.length_map]
      rfl

end Table

namespace Directory

variable {ν : Type} {d : Directory ν} {home : NodeId}

/-- A directory holds the routes of a plain table, and none that leads to a node or over it. The
destinations in it are those to which there are routes. -/
structure Files (d : Directory ν) (home : NodeId) (routes : Table Route ν) : Prop where
  flat_eq : d.flat = routes
  /-- No destination is kept without a next hop. -/
  occupied : ∀ x hops, d.find? x = some hops → hops.isEmpty = false
  destination : d.find? home = none
  nextHop : ∀ x hops, d.find? x = some hops → hops.find? home = none
  counted : ∃ xs : List NodeId, xs.Nodup ∧ (∀ x, x ∈ xs ↔ ∃ hop e, routes.find? ⟨x, hop⟩ = some e) ∧
    d.size = xs.length

theorem Occupied.files (h : d.Occupied) (ha : d.flat.Avoid home) : d.Files home d.flat where
  flat_eq := rfl
  occupied := h
  destination := by
    refine Option.eq_none_iff_forall_ne_some.2 fun hops hhops => ?_
    obtain ⟨hop, e, he⟩ := Table.isEmpty_eq_false_iff.1 (h home hops hhops)
    have hfound : d.flat.find? ⟨home, hop⟩ = some e := by
      rw [find?_flat, entry?, toward_eq_of_find? hhops, he]
    exact (ha _ e hfound).destination rfl
  nextHop x hops hhops := by
    refine Option.eq_none_iff_forall_ne_some.2 fun e he => ?_
    have hfound : d.flat.find? ⟨x, home⟩ = some e := by
      rw [find?_flat, entry?, toward_eq_of_find? hhops, he]
    exact (ha _ e hfound).nextHop rfl
  counted := ⟨d.keys, d.nodup_keys, fun _ => h.mem_keys_iff, (List.length_map _).symm⟩

end Directory

/-! ## The proactive protocol -/

namespace DistanceVector

/-- What a table is told and asked. -/
inductive Call where
  | neighbor (node : NodeId) (seq : UInt32) (now : Millis)
  | advertisement (sender destination : NodeId) (hops : UInt8) (seq : UInt32) (now : Millis)
  | lookUp (destination : NodeId)
  | jitter
  | removeNextHop (nextHop : NodeId)
  | purge (now : Millis)

/-- What a table answers, the number of routes that it drops apart. -/
inductive Answer where
  | learned (changed : Bool)
  | found (candidates : List Candidate)
  | jittered (jitter : Millis)

/-- The answer to a call, if it has one, and the table afterwards. Routes that are advertised do not
expire. -/
def apply (t : DistanceVector) : Call → Option Answer × DistanceVector
  | .neighbor node seq now =>
    let (changed, t) := t.addNeighbor node seq now
    (some (.learned changed), t)
  | .advertisement sender destination hops seq now =>
    let (changed, t) := t.onAdvertisement sender destination hops seq now
    (some (.learned changed), t)
  | .lookUp destination =>
    let (candidates, t) := t.candidates destination
    (some (.found candidates), t)
  | .jitter =>
    let (jitter, t) := t.updateJitter
    (some (.jittered jitter), t)
  | .removeNextHop nextHop => (none, (t.removeNextHop nextHop).2)
  | .purge _ => (none, t)

/-- The table after several calls in a row. -/
def run (t : DistanceVector) (cs : List Call) : DistanceVector :=
  cs.foldl (fun t c => (t.apply c).2) t

/-- An entry has been kept as it is, or replaced by one with a newer sequence number or with the
same and fewer hops. -/
def Entry.Improved (e e' : Entry) : Prop :=
  e' = e ∨ e.seq < e'.seq ∨ e.seq = e'.seq ∧ e'.hops < e.hops

theorem Entry.Improved.trans {e e' e'' : Entry} (h : e.Improved e') (h' : e'.Improved e'') :
    e.Improved e'' := by
  unfold Improved at *
  grind

theorem Entry.improved_of_yieldsTo {e : Entry} {hops : UInt8} {seq : UInt32} (now : Millis)
    (h : e.yieldsTo hops seq = true) : e.Improved ⟨hops, seq, now⟩ := by
  simp only [yieldsTo, Bool.or_eq_true, Bool.and_eq_true, decide_eq_true_eq] at h
  exact .inr h

variable {t : DistanceVector} {r : Route} {e : Entry}

/-- What is told of a route replaces its entry by a better one, or no entry at all. -/
theorem improved_learn (h : t.routes.find? r = some e) (route : Route) (hops : UInt8) (seq : UInt32)
    (now : Millis) :
    ∃ e', (t.learn route hops seq now).2.routes.find? r = some e' ∧ e.Improved e' := by
  unfold learn
  split
  · exact ⟨e, h, .inl rfl⟩
  · split
    · rename_i hyields
      simp only [Table.find?_insert]
      split
      · rename_i heq
        rw [← heq, h] at hyields
        exact ⟨_, rfl, e.improved_of_yieldsTo now hyields⟩
      · exact ⟨e, h, .inl rfl⟩
    · exact ⟨e, h, .inl rfl⟩

theorem improved_apply (h : t.routes.find? r = some e) {c : Call}
    (hc : c ≠ .removeNextHop r.nextHop) :
    ∃ e', (t.apply c).2.routes.find? r = some e' ∧ e.Improved e' := by
  cases c with
  | neighbor node seq now => exact improved_learn h _ _ _ _
  | advertisement sender destination hops seq now => exact improved_learn h _ _ _ _
  | lookUp destination => exact ⟨e, h, .inl rfl⟩
  | jitter => exact ⟨e, h, .inl rfl⟩
  | removeNextHop nextHop =>
    have hother : r.nextHop ≠ nextHop := fun heq => hc (heq ▸ rfl)
    refine ⟨e, ?_, .inl rfl⟩
    show (t.routes.filter _).find? r = some e
    rw [Table.find?_filter, h]
    exact if_pos (decide_eq_true hother)
  | purge now => exact ⟨e, h, .inl rfl⟩

/-- An entry improves as long as its route is not taken out. -/
theorem improved_run (h : t.routes.find? r = some e) {cs : List Call}
    (hcs : ∀ c ∈ cs, c ≠ .removeNextHop r.nextHop) :
    ∃ e', (t.run cs).routes.find? r = some e' ∧ e.Improved e' := by
  induction cs generalizing t e with
  | nil => exact ⟨e, h, .inl rfl⟩
  | cons c cs ih =>
    obtain ⟨hc, hcs⟩ := List.forall_mem_cons.1 hcs
    obtain ⟨e', he', himproved⟩ := improved_apply h hc
    obtain ⟨e'', he'', himproved'⟩ := ih he' hcs
    exact ⟨e'', he'', himproved.trans himproved'⟩

theorem reached_run {home : NodeId} (h : t.Reached home) (cs : List Call) :
    (t.run cs).Reached home := by
  induction cs generalizing t with
  | nil => exact h
  | cons c cs ih =>
    refine ih ?_
    cases c with
    | neighbor node seq now => exact h.heard (.neighbor node seq now)
    | advertisement sender destination hops seq now =>
      exact h.heard (.advertisement sender destination hops seq now)
    | lookUp destination => exact h.lookedUp destination
    | jitter => exact h.jittered
    | removeNextHop nextHop => exact h.nextHopRemoved nextHop
    | purge now => exact h

namespace Filed

/-- The answer to a call, if it has one, and the table afterwards. -/
def apply (t : Filed) : Call → Option Answer × Filed
  | .neighbor node seq now =>
    let (changed, t) := t.learn ⟨node, node⟩ 1 seq now
    (some (.learned changed), t)
  | .advertisement sender destination hops seq now =>
    let (changed, t) := t.learn ⟨destination, sender⟩ hops.succSat seq now
    (some (.learned changed), t)
  | .lookUp destination =>
    let (candidates, t) := t.candidates destination
    (some (.found candidates), t)
  | .jitter =>
    let (jitter, t) := t.updateJitter
    (some (.jittered jitter), t)
  | .removeNextHop nextHop => (none, (t.removeNextHop nextHop).2)
  | .purge _ => (none, t)

/-- The table after several calls in a row. -/
def run (t : Filed) (cs : List Call) : Filed := cs.foldl (fun t c => (t.apply c).2) t

/-- The table with its routes in a plain table. -/
def flat (t : Filed) : DistanceVector := ⟨t.home, t.routes.flat, t.maxJitter, t.stream⟩

theorem flat_ofNode (home : NodeId) (maxJitter : Millis) (stream : RandomStream) :
    (ofNode home maxJitter stream).flat = { DistanceVector.ofNode home maxJitter with stream } := rfl

variable (t : Filed)

theorem learn_flat (route : Route) (hops : UInt8) (seq : UInt32) (now : Millis) :
    (t.learn route hops seq now).1 = (t.flat.learn route hops seq now).1 ∧
      (t.learn route hops seq now).2.flat = (t.flat.learn route hops seq now).2 := by
  obtain ⟨hchanged, hroutes⟩ := t.routes.flat_take route ⟨hops, seq, now⟩ (·.yieldsTo hops seq)
  have hhome : t.flat.home = t.home := rfl
  have hplain : t.flat.routes = t.routes.flat := rfl
  unfold learn DistanceVector.learn
  rw [hhome, hplain]
  by_cases hself : (route.destination = t.home || route.nextHop = t.home) = true
  · rw [if_pos hself, if_pos hself]
    exact ⟨rfl, rfl⟩
  · rw [if_neg hself, if_neg hself]
    by_cases hyields : (t.routes.flat.find? route).all (·.yieldsTo hops seq) = true
    · rw [if_pos hyields] at hroutes
      rw [if_pos hyields]
      exact ⟨hchanged.trans hyields, congrArg (fun routes => { t.flat with routes }) hroutes⟩
    · rw [if_neg hyields] at hroutes
      rw [if_neg hyields]
      exact ⟨hchanged.trans (Bool.eq_false_iff.2 hyields),
        congrArg (fun routes => { t.flat with routes }) hroutes⟩

theorem candidates_flat (destination : NodeId) :
    (t.candidates destination).1 = (t.flat.candidates destination).1 ∧
      (t.candidates destination).2.flat = (t.flat.candidates destination).2 := by
  have hroutes : t.routesTo destination = t.flat.routesTo destination := by
    rw [routesTo, DistanceVector.routesTo, show t.flat.routes = t.routes.flat from rfl,
      Directory.filter_flat, Directory.line, List.map_map]
    rfl
  unfold candidates DistanceVector.candidates
  rw [hroutes]
  exact ⟨rfl, rfl⟩

theorem removeNextHop_flat (nextHop : NodeId) :
    (t.removeNextHop nextHop).1 = (t.flat.removeNextHop nextHop).1 ∧
      (t.removeNextHop nextHop).2.flat = (t.flat.removeNextHop nextHop).2 := by
  obtain ⟨hcount, hroutes⟩ := t.routes.flat_sweep (Directory.dropHop_eq nextHop)
  exact ⟨hcount, congrArg (fun routes => { t.flat with routes }) hroutes⟩

/-- Every call is answered alike, whichever way the routes are kept. -/
theorem apply_flat (c : Call) :
    (t.apply c).1 = (t.flat.apply c).1 ∧ (t.apply c).2.flat = (t.flat.apply c).2 := by
  cases c with
  | neighbor node seq now =>
    obtain ⟨hchanged, hflat⟩ := t.learn_flat ⟨node, node⟩ 1 seq now
    exact ⟨congrArg (fun changed => some (Answer.learned changed)) hchanged, hflat⟩
  | advertisement sender destination hops seq now =>
    obtain ⟨hchanged, hflat⟩ := t.learn_flat ⟨destination, sender⟩ hops.succSat seq now
    exact ⟨congrArg (fun changed => some (Answer.learned changed)) hchanged, hflat⟩
  | lookUp destination =>
    obtain ⟨hfound, hflat⟩ := t.candidates_flat destination
    exact ⟨congrArg (fun found => some (Answer.found found)) hfound, hflat⟩
  | jitter => exact ⟨rfl, rfl⟩
  | removeNextHop nextHop => exact ⟨rfl, (t.removeNextHop_flat nextHop).2⟩
  | purge now => exact ⟨rfl, rfl⟩

theorem run_flat (cs : List Call) : (t.run cs).flat = t.flat.run cs := by
  induction cs generalizing t with
  | nil => rfl
  | cons c cs ih =>
    show ((t.apply c).2.run cs).flat = (t.flat.apply c).2.run cs
    rw [ih, (t.apply_flat c).2]

variable {t}

theorem occupied_learn (h : t.routes.Occupied) (route : Route) (hops : UInt8) (seq : UInt32)
    (now : Millis) : (t.learn route hops seq now).2.routes.Occupied := by
  unfold learn
  split
  · exact h
  · exact h.take _ _ _

theorem occupied_apply (h : t.routes.Occupied) (c : Call) : (t.apply c).2.routes.Occupied := by
  cases c with
  | neighbor node seq now => exact occupied_learn h _ _ _ _
  | advertisement sender destination hops seq now => exact occupied_learn h _ _ _ _
  | lookUp destination => exact h
  | jitter => exact h
  | removeNextHop nextHop => exact Directory.occupied_sweep _
  | purge now => exact h

theorem occupied_run (h : t.routes.Occupied) (cs : List Call) : (t.run cs).routes.Occupied := by
  induction cs generalizing t with
  | nil => exact h
  | cons c cs ih => exact ih (occupied_apply h c)

end Filed

/-- What holds of the routes of a table: they are the same in a directory and in a plain table,
their destinations are counted, and so is what is taken out of them. -/
structure Exact (home : NodeId) (t : Filed) (u : DistanceVector) : Prop where
  files : t.routes.Files home u.routes
  destinations : t.destinations = u.destinations
  agree : ∀ c, (t.apply c).1 = (u.apply c).1 ∧ (t.apply c).2.flat = (u.apply c).2
  /-- The routes over a next hop are taken out. -/
  removed : ∀ hop, (t.removeNextHop hop).1 = (u.removeNextHop hop).1 ∧
    u.routes.Loses (fun r _ => r.nextHop = hop) (u.removeNextHop hop).1
      (u.removeNextHop hop).2.routes
  improved : ∀ r e, u.routes.find? r = some e → ∀ cs : List Call,
    (∀ c ∈ cs, c ≠ .removeNextHop r.nextHop) →
      ∃ e', (u.run cs).routes.find? r = some e' ∧ e.Improved e'

theorem exact_flat {home : NodeId} {t : Filed} (h : t.routes.Occupied) (hr : t.flat.Reached home) :
    Exact home t t.flat where
  files := h.files hr.avoids
  destinations := h.size_eq
  agree := t.apply_flat
  removed hop := ⟨(t.removeNextHop_flat hop).1,
    t.flat.routes.loses_filter fun _ _ => decide_eq_true_iff⟩
  improved _ _ he _ hcs := improved_run he hcs

theorem exact_run (home : NodeId) (maxJitter : Millis) (stream : RandomStream) (cs : List Call) :
    Exact home ((Filed.ofNode home maxJitter stream).run cs)
      (run { ofNode home maxJitter with stream } cs) := by
  have hflat := (Filed.ofNode home maxJitter stream).run_flat cs
  have hreached : (run { ofNode home maxJitter with stream } cs).Reached home :=
    reached_run ((Reached.start maxJitter).streamed stream) cs
  rw [Filed.flat_ofNode] at hflat
  rw [← hflat] at hreached ⊢
  exact exact_flat (Filed.occupied_run Directory.occupied_empty cs) hreached

end DistanceVector

/-! ## The reactive protocol -/

namespace OnDemand

/-- The cache after several calls in a row. -/
def run (t : OnDemand) (cs : List Call) : OnDemand := cs.foldl (fun t c => (t.apply c).2) t

theorem reached_run {home : NodeId} {t : OnDemand} (h : t.Reached home) (cs : List Call) :
    (t.run cs).Reached home := by
  induction cs generalizing t with
  | nil => exact h
  | cons c cs ih => exact ih (h.called c)

namespace Filed

/-- The answer to a call, if it has one, and the cache afterwards. -/
def apply (t : Filed) : Call → Option Answer × Filed
  | .reply nextHop destination hops seq now =>
    let (changed, t) := t.onRouteReply nextHop destination hops seq now
    (some (.learned changed), t)
  | .lookUp destination now =>
    let (candidates, t) := t.candidates destination now
    (some (.found candidates), t)
  | .request destination now =>
    let (request, t) := t.request destination now
    (some (.asks request), t)
  | .removeNextHop nextHop => (none, (t.removeNextHop nextHop).2)
  | .purge now => (none, (t.purge now).2)

/-- The cache after several calls in a row. -/
def run (t : Filed) (cs : List Call) : Filed := cs.foldl (fun t c => (t.apply c).2) t

/-- The cache with its routes in a plain table. -/
def flat (t : Filed) : OnDemand :=
  ⟨t.home, t.routes.flat, t.lifetime, t.maxJitter, t.nextRequest, t.stream⟩

theorem flat_ofNode (home : NodeId) (lifetime maxJitter : Millis) (stream : RandomStream) :
    (ofNode home lifetime maxJitter stream).flat =
      { OnDemand.ofNode home lifetime maxJitter with stream } := rfl

variable (t : Filed)

theorem onRouteReply_flat (nextHop destination : NodeId) (hops : UInt8) (seq : UInt32)
    (now : Millis) :
    (t.onRouteReply nextHop destination hops seq now).1 =
        (t.flat.onRouteReply nextHop destination hops seq now).1 ∧
      (t.onRouteReply nextHop destination hops seq now).2.flat =
        (t.flat.onRouteReply nextHop destination hops seq now).2 := by
  have hhome : t.flat.home = t.home := rfl
  have hplain : t.flat.routes = t.routes.flat := rfl
  obtain ⟨hchanged, hroutes⟩ := t.routes.flat_take ⟨destination, nextHop⟩
    ⟨hops, seq, now.addSat t.lifetime⟩ (·.yieldsTo seq now)
  unfold onRouteReply OnDemand.onRouteReply
  simp only [hhome, hplain]
  by_cases hself : (destination = t.home || nextHop = t.home) = true
  · rw [if_pos hself, if_pos hself]
    exact ⟨rfl, rfl⟩
  · rw [if_neg hself, if_neg hself]
    by_cases hyields :
        (t.routes.flat.find? ⟨destination, nextHop⟩).all (·.yieldsTo seq now) = true
    · rw [if_pos hyields] at hroutes
      rw [if_pos hyields]
      exact ⟨hchanged.trans hyields, congrArg (fun routes => { t.flat with routes }) hroutes⟩
    · rw [if_neg hyields] at hroutes
      rw [if_neg hyields]
      exact ⟨hchanged.trans (Bool.eq_false_iff.2 hyields),
        congrArg (fun routes => { t.flat with routes }) hroutes⟩

theorem candidates_flat (destination : NodeId) (now : Millis) :
    (t.candidates destination now).1 = (t.flat.candidates destination now).1 ∧
      (t.candidates destination now).2.flat = (t.flat.candidates destination now).2 := by
  have hroutes : t.routesTo destination now = t.flat.routesTo destination now := by
    rw [routesTo, OnDemand.routesTo, show t.flat.routes = t.routes.flat from rfl,
      ← List.filter_filter, List.filter_comm, Directory.filter_flat, Directory.line,
      List.filter_map, List.map_map]
    rfl
  unfold candidates OnDemand.candidates
  rw [hroutes]
  exact ⟨rfl, rfl⟩

theorem request_flat (destination : NodeId) (now : Millis) :
    (t.request destination now).1 = (t.flat.request destination now).1 ∧
      (t.request destination now).2.flat = (t.flat.request destination now).2 := by
  have hhome : t.flat.home = t.home := rfl
  unfold request OnDemand.request
  rw [hhome]
  split <;> exact ⟨rfl, rfl⟩

theorem removeNextHop_flat (nextHop : NodeId) :
    (t.removeNextHop nextHop).1 = (t.flat.removeNextHop nextHop).1 ∧
      (t.removeNextHop nextHop).2.flat = (t.flat.removeNextHop nextHop).2 := by
  obtain ⟨hcount, hroutes⟩ := t.routes.flat_sweep (Directory.dropHop_eq nextHop)
  exact ⟨hcount, congrArg (fun routes => { t.flat with routes }) hroutes⟩

theorem purge_flat (now : Millis) :
    (t.purge now).1 = (t.flat.purge now).1 ∧ (t.purge now).2.flat = (t.flat.purge now).2 := by
  obtain ⟨hcount, hroutes⟩ := t.routes.flat_sweep (Directory.retain_eq (!·.isExpired now))
  exact ⟨hcount, congrArg (fun routes => { t.flat with routes }) hroutes⟩

/-- Every call is answered alike, whichever way the routes are kept. -/
theorem apply_flat (c : Call) :
    (t.apply c).1 = (t.flat.apply c).1 ∧ (t.apply c).2.flat = (t.flat.apply c).2 := by
  cases c with
  | reply nextHop destination hops seq now =>
    obtain ⟨hchanged, hflat⟩ := t.onRouteReply_flat nextHop destination hops seq now
    exact ⟨congrArg (fun changed => some (Answer.learned changed)) hchanged, hflat⟩
  | lookUp destination now =>
    obtain ⟨hfound, hflat⟩ := t.candidates_flat destination now
    exact ⟨congrArg (fun found => some (Answer.found found)) hfound, hflat⟩
  | request destination now =>
    obtain ⟨hasks, hflat⟩ := t.request_flat destination now
    exact ⟨congrArg (fun request => some (Answer.asks request)) hasks, hflat⟩
  | removeNextHop nextHop => exact ⟨rfl, (t.removeNextHop_flat nextHop).2⟩
  | purge now => exact ⟨rfl, (t.purge_flat now).2⟩

theorem run_flat (cs : List Call) : (t.run cs).flat = t.flat.run cs := by
  induction cs generalizing t with
  | nil => rfl
  | cons c cs ih =>
    show ((t.apply c).2.run cs).flat = (t.flat.apply c).2.run cs
    rw [ih, (t.apply_flat c).2]

variable {t}

theorem occupied_apply (h : t.routes.Occupied) (c : Call) : (t.apply c).2.routes.Occupied := by
  cases c with
  | reply nextHop destination hops seq now =>
    show (t.onRouteReply nextHop destination hops seq now).2.routes.Occupied
    unfold onRouteReply
    split
    · exact h
    · exact h.take _ _ _
  | lookUp destination now => exact h
  | request destination now =>
    show (t.request destination now).2.routes.Occupied
    unfold request
    split <;> exact h
  | removeNextHop nextHop => exact Directory.occupied_sweep _
  | purge now => exact Directory.occupied_sweep _

theorem occupied_run (h : t.routes.Occupied) (cs : List Call) : (t.run cs).routes.Occupied := by
  induction cs generalizing t with
  | nil => exact h
  | cons c cs ih => exact ih (occupied_apply h c)

end Filed

/-- What holds of the routes of a cache: they are the same in a directory and in a plain table,
their destinations are counted, and so is what is taken out of them. -/
structure Exact (home : NodeId) (t : Filed) (u : OnDemand) : Prop where
  files : t.routes.Files home u.routes
  destinations : t.destinations = u.destinations
  agree : ∀ c, (t.apply c).1 = (u.apply c).1 ∧ (t.apply c).2.flat = (u.apply c).2
  /-- The routes over a next hop are taken out. -/
  removed : ∀ hop, (t.removeNextHop hop).1 = (u.removeNextHop hop).1 ∧
    u.routes.Loses (fun r _ => r.nextHop = hop) (u.removeNextHop hop).1
      (u.removeNextHop hop).2.routes
  /-- The routes that have expired are taken out. -/
  purged : ∀ now, (t.purge now).1 = (u.purge now).1 ∧
    u.routes.Loses (fun _ e => e.expiresAt < now) (u.purge now).1 (u.purge now).2.routes

theorem exact_flat {home : NodeId} {t : Filed} (h : t.routes.Occupied) (hr : t.flat.Reached home) :
    Exact home t t.flat where
  files := h.files hr.avoids
  destinations := h.size_eq
  agree := t.apply_flat
  removed hop := ⟨(t.removeNextHop_flat hop).1,
    t.flat.routes.loses_filter fun _ _ => decide_eq_true_iff⟩
  purged now := ⟨(t.purge_flat now).1, t.flat.routes.loses_filter fun _ _ => by
    rw [Bool.not_eq_true', Entry.isExpired, decide_eq_false_iff_not]⟩

theorem exact_run (home : NodeId) (lifetime maxJitter : Millis)
    (stream : RandomStream) (cs : List Call) :
    Exact home ((Filed.ofNode home lifetime maxJitter stream).run cs)
      (run { ofNode home lifetime maxJitter with stream } cs) := by
  have hflat := (Filed.ofNode home lifetime maxJitter stream).run_flat cs
  have hreached : (run { ofNode home lifetime maxJitter with stream } cs).Reached home :=
    reached_run ((Reached.start lifetime maxJitter).streamed stream) cs
  rw [Filed.flat_ofNode] at hflat
  rw [← hflat] at hreached ⊢
  exact exact_flat (Filed.occupied_run Directory.occupied_empty cs) hreached

end OnDemand

/-- Whatever the protocols of a node are told and asked, they keep the same routes in a directory as
in a plain table. Each destination in it has a next hop, and the node is neither of them. An entry of
the proactive protocol gives way to better ones only. A next hop that is removed takes with it the
routes over it, and a purge of the reactive protocol takes out those that have expired; they are
counted, and no others go. -/
theorem Directory.routes_exact (home : NodeId) (stream : RandomStream) :
    (∀ maxJitter (cs : List DistanceVector.Call), DistanceVector.Exact home
      ((DistanceVector.Filed.ofNode home maxJitter stream).run cs)
      (DistanceVector.run { DistanceVector.ofNode home maxJitter with stream } cs)) ∧
    (∀ lifetime maxJitter (cs : List OnDemand.Call), OnDemand.Exact home
      ((OnDemand.Filed.ofNode home lifetime maxJitter stream).run cs)
      (OnDemand.run { OnDemand.ofNode home lifetime maxJitter with stream } cs)) :=
  ⟨fun maxJitter cs => DistanceVector.exact_run home maxJitter stream cs,
    fun lifetime maxJitter cs => OnDemand.exact_run home lifetime maxJitter stream cs⟩

end KeyReserve
