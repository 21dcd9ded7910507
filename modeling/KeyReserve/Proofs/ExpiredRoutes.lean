import KeyReserve.Routing.OnDemand

/-!
# Expired routes

An on-demand cache keeps routes that have expired until it is purged. They are as good as gone:
a reply takes the place of an expired route as if there were none, and a lookup passes it over
before it draws. Two caches that differ in expired routes only therefore answer alike, and how often
a cache is purged cannot be told from its answers.

## Main definitions

* `OnDemand.Call`, `OnDemand.apply`: what a cache is asked, and what it does then;
* `OnDemand.answers`: what a cache answers to calls in a row;
* `OnDemand.live`: the cache without the routes that have expired at a time.

## Main results

* `OnDemand.apply_live`: expired routes bear on no answer;
* `OnDemand.answers_filter_purge`: the answers do not depend on purges.
-/

namespace KeyReserve

namespace OnDemand

/-- What a cache is asked. -/
inductive Call where
  | reply (nextHop destination : NodeId) (hops : UInt8) (seq : UInt32) (now : Millis)
  | lookUp (destination : NodeId) (now : Millis)
  | request (destination : NodeId) (now : Millis)
  | removeNextHop (nextHop : NodeId)
  | purge (now : Millis)

/-- The time of a call. Links go down without one. -/
def Call.time? : Call → Option Millis
  | .reply _ _ _ _ now => some now
  | .lookUp _ now => some now
  | .request _ now => some now
  | .removeNextHop _ => none
  | .purge now => some now

def Call.isPurge : Call → Bool
  | .purge _ => true
  | _ => false

/-- What a cache answers, the number of routes that it drops apart. -/
inductive Answer where
  | learned (changed : Bool)
  | found (candidates : List Candidate)
  | asks (request : Option RouteRequest)
  deriving DecidableEq

/-- The answer to a call, if it has one, and the cache afterwards. -/
def apply (t : OnDemand) : Call → Option Answer × OnDemand
  | .reply nextHop destination hops seq now =>
    let (changed, t) := t.onRouteReply nextHop destination hops seq now
    (some (.learned changed), t)
  | .lookUp destination now =>
    let (candidates, t) := t.candidates destination now
    (some (.found candidates), t)
  | .request destination now =>
    let (request, t) := t.request destination now
    (some (.asks request), t)
  | .removeNextHop nextHop => (none, (t.removeNextHop nextHop).2)
  | .purge now => (none, (t.purge now).2)

/-- What a cache answers to calls in a row. -/
def answers (t : OnDemand) : List Call → List Answer
  | [] => []
  | c :: cs => (t.apply c).1.toList ++ (t.apply c).2.answers cs

/-- The cache without the routes that have expired at a time. -/
def live (t : OnDemand) (now : Millis) : OnDemand := (t.purge now).2

variable (t : OnDemand)

/-! ## Routes that have expired -/

/-- What has expired does not come to life again. -/
theorem Entry.isExpired_mono {e : Entry} {now later : Millis} (hle : now ≤ later)
    (h : e.isExpired now = true) : e.isExpired later = true := by
  simp only [isExpired, decide_eq_true_eq] at h ⊢
  exact UInt64.lt_of_lt_of_le h hle

/-- A route that is alive later is alive now. -/
theorem Entry.alive_and {e : Entry} {now later : Millis} (hle : now ≤ later) :
    (!e.isExpired later && !e.isExpired now) = !e.isExpired later := by
  cases h : e.isExpired now with
  | false => simp
  | true => simp [Entry.isExpired_mono hle h]

theorem live_live {now later : Millis} (hle : now ≤ later) :
    (t.live now).live later = t.live later := by
  simp only [live, purge, Table.filter_filter, Entry.alive_and hle]

/-- An expired route gives way to any reply, as if there were none. -/
theorem all_yieldsTo_filter (e : Option Entry) (seq : UInt32) {now later : Millis}
    (hle : now ≤ later) :
    (e.filter (!·.isExpired now)).all (·.yieldsTo seq later) = e.all (·.yieldsTo seq later) := by
  cases e with
  | none => rfl
  | some e =>
    cases h : e.isExpired now with
    | false => simp [h]
    | true => simp [h, Entry.yieldsTo, Entry.isExpired_mono hle h]

/-! ## Answers -/

theorem candidates_live (destination : NodeId) {now later : Millis} (hle : now ≤ later) :
    (t.live now).candidates destination later =
      ((t.candidates destination later).1, (t.candidates destination later).2.live now) := by
  have hroutes : (t.live now).routesTo destination later = t.routesTo destination later := by
    simp only [routesTo, live, purge, Table.filter, List.filter_filter, Bool.and_assoc,
      Entry.alive_and hle]
  simp only [candidates, hroutes]
  rfl

theorem onRouteReply_live (nextHop destination : NodeId) (hops : UInt8) (seq : UInt32)
    {now later : Millis} (hle : now ≤ later) :
    ((t.live now).onRouteReply nextHop destination hops seq later).1 =
        (t.onRouteReply nextHop destination hops seq later).1 ∧
      ((t.live now).onRouteReply nextHop destination hops seq later).2.live now =
        (t.onRouteReply nextHop destination hops seq later).2.live now := by
  have hfound : ((t.live now).routes.find? ⟨destination, nextHop⟩).all (·.yieldsTo seq later) =
      (t.routes.find? ⟨destination, nextHop⟩).all (·.yieldsTo seq later) :=
    (congrArg (Option.all _) (t.routes.find?_filter _ _)).trans (all_yieldsTo_filter _ seq hle)
  have hhome : (t.live now).home = t.home := rfl
  simp only [onRouteReply, hhome, hfound]
  split
  · exact ⟨rfl, t.live_live (UInt64.le_refl now)⟩
  · split
    · refine ⟨rfl, ?_⟩
      simp only [live, purge, Table.filter_insert_filter]
    · exact ⟨rfl, t.live_live (UInt64.le_refl now)⟩

theorem request_live (destination : NodeId) (now later : Millis) :
    (t.live now).request destination later =
      ((t.request destination later).1, (t.request destination later).2.live now) := by
  have hhome : (t.live now).home = t.home := rfl
  simp only [request, hhome]
  split <;> rfl

theorem removeNextHop_live (nextHop : NodeId) (now : Millis) :
    ((t.live now).removeNextHop nextHop).2 = (t.removeNextHop nextHop).2.live now := by
  simp only [removeNextHop, live, purge, Table.filter_filter, Bool.and_comm]

/-- Routes that have expired by the time of a call bear neither on its answer nor on what is left
of the other routes. -/
theorem apply_live {now : Millis} {c : Call} (hle : ∀ time, c.time? = some time → now ≤ time) :
    ((t.live now).apply c).1 = (t.apply c).1 ∧
      ((t.live now).apply c).2.live now = (t.apply c).2.live now := by
  cases c with
  | reply nextHop destination hops seq later =>
    obtain ⟨hanswer, hlive⟩ := t.onRouteReply_live nextHop destination hops seq (hle later rfl)
    exact ⟨congrArg (fun changed => some (Answer.learned changed)) hanswer, hlive⟩
  | lookUp destination later =>
    simp only [apply, t.candidates_live destination (hle later rfl)]
    exact ⟨trivial, live_live _ (UInt64.le_refl now)⟩
  | request destination later =>
    simp only [apply, t.request_live destination now later]
    exact ⟨trivial, live_live _ (UInt64.le_refl now)⟩
  | removeNextHop nextHop =>
    simp only [apply, t.removeNextHop_live nextHop now]
    exact ⟨trivial, live_live _ (UInt64.le_refl now)⟩
  | purge later =>
    refine ⟨rfl, ?_⟩
    show ((t.live now).live later).live now = (t.live later).live now
    rw [t.live_live (hle later rfl)]

/-- Caches that differ in expired routes only give the same answers, whatever purges are left out
for one of them. -/
theorem answers_of_live_eq {t u : OnDemand} (now : Millis) (h : t.live now = u.live now)
    {cs : List Call} (hle : ∀ time ∈ cs.filterMap Call.time?, now ≤ time)
    (hsorted : (cs.filterMap Call.time?).Pairwise (· ≤ ·)) :
    t.answers cs = u.answers (cs.filter (!·.isPurge)) := by
  induction cs generalizing t u now with
  | nil => rfl
  | cons c cs ih =>
    have hhead : ∀ time, c.time? = some time → now ≤ time := fun time htime =>
      hle time (List.mem_filterMap.2 ⟨c, List.mem_cons_self, htime⟩)
    have htail : ∀ time ∈ cs.filterMap Call.time?, now ≤ time := fun time htime => by
      obtain ⟨d, hd, hd'⟩ := List.mem_filterMap.1 htime
      exact hle time (List.mem_filterMap.2 ⟨d, List.mem_cons_of_mem c hd, hd'⟩)
    have hrest : (cs.filterMap Call.time?).Pairwise (· ≤ ·) :=
      hsorted.sublist ((List.sublist_cons_self c cs).filterMap _)
    cases hc : c.isPurge with
    | false =>
      obtain ⟨hanswer, hlive⟩ := t.apply_live hhead
      obtain ⟨hanswer', hlive'⟩ := u.apply_live hhead
      rw [h] at hanswer hlive
      rw [List.filter_cons_of_pos (by simp [hc]), answers, answers, ← hanswer, hanswer',
        ih now (hlive.symm.trans hlive') htail hrest]
    | true =>
      cases c with
      | purge later =>
        -- the one cache drops what the other may keep, and is the same at the time of the purge
        have hsame : (t.live later).live later = u.live later := by
          rw [t.live_live (UInt64.le_refl later), ← t.live_live (hhead later rfl), h,
            u.live_live (hhead later rfl)]
        have hlater : ∀ time ∈ cs.filterMap Call.time?, later ≤ time :=
          (List.pairwise_cons.1 hsorted).1
        rw [List.filter_cons_of_neg (by simp [Call.isPurge])]
        exact ih later hsame hlater hrest
      | _ => cases hc

/-- Calls on any cache at times that do not go back, with purges among them in any places, are
answered as they are without the purges: replies are taken in or not, lookups find the same
candidates with the same draws, and the same routes are requested. -/
theorem answers_filter_purge (cs : List Call)
    (hsorted : (cs.filterMap Call.time?).Pairwise (· ≤ ·)) :
    t.answers cs = t.answers (cs.filter (!·.isPurge)) :=
  answers_of_live_eq 0 rfl (fun _ _ => UInt64.zero_le) hsorted

/-- A route expires and is purged, and an older reply for it is taken in. -/
def Call.renewal : List Call :=
  [.reply ⟨2⟩ ⟨9⟩ 2 7 0, .lookUp ⟨9⟩ 10, .purge 11, .reply ⟨2⟩ ⟨9⟩ 1 6 11, .lookUp ⟨9⟩ 12,
    .purge 20, .request ⟨8⟩ 20]

theorem answers_filter_purge_renewal :
    (((ofNode ⟨1⟩ 10 5).onRouteReply ⟨2⟩ ⟨9⟩ 2 7 0).2.purge 11).1 = 1 ∧
      (Call.renewal.filterMap Call.time?).Pairwise (· ≤ ·) ∧
      (ofNode ⟨1⟩ 10 5).answers Call.renewal =
        (ofNode ⟨1⟩ 10 5).answers (Call.renewal.filter (!·.isPurge)) :=
  ⟨by decide, by decide, answers_filter_purge _ _ (by decide)⟩

end OnDemand

end KeyReserve
