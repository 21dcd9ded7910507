import KeyReserve.Proofs.Outlook

/-!
# Rankings and selections

To rank the candidates for a destination is to check each of them by the buffer of its first link and
to move the viable ones to the front. Candidates may share a route or a link, and then a later check
takes the place of an earlier one. It finds the same, since no check changes a buffer.

## Main definitions

* `KeyAware.fits`: whether the buffer of the first link of a candidate supports a class of traffic;
* `KeyAware.Ranking`: candidates in the order of their ranking, and the record of their checks;
* `KeyAware.Selected`: what is selected among some candidates, and how their destination is marked.

## Main results

* `KeyAware.find?_checkAll`: what is on record once some candidates have been checked;
* `KeyAware.ranking_selected`: candidates are ranked, and then selected by it.
-/

namespace KeyReserve

namespace KeyAware

/-- Whether the buffer of the first link of a candidate supports traffic of a class. -/
def fits (k : KeyAware) (c : TrafficClass) (links : Links) (x : Candidate) : Bool :=
  viable c (links.buffer? (x.route.link k.home)) (k.least c)

/-- Candidates are ranked: the viable ones first, and each group in the order given. Each comes with
what its check finds, and this is on record in the current epoch. -/
structure Ranking (k : KeyAware) (c : TrafficClass) (links : Links) (now : Millis)
    (cs : List Candidate) (ranked : List RankedRoute) (after : KeyAware) : Prop where
  arranged : (ranked.map (·.candidate)).Perm cs
  viableFirst : ranked.Pairwise fun a b => b.appraisal.viable = true → a.appraisal.viable = true
  viable : (ranked.filter (·.appraisal.viable)).map (·.candidate) = cs.filter (k.fits c links)
  others : (ranked.filter (!·.appraisal.viable)).map (·.candidate) = cs.filter (!k.fits c links ·)
  appraised : ∀ r ∈ ranked, r.appraisal =
    .evaluate r.candidate.route c (links.buffer? (r.candidate.route.link k.home)) (k.least c) now
      k.epoch
  recorded : ∀ r ∈ ranked, after.appraisal? r.candidate.route c = some r.appraisal
  /-- The checks of other routes, and those for another class, stay on record. -/
  kept : ∀ route d, (d = c → ∀ x ∈ cs, x.route ≠ route) →
    after.appraisals.find? (route, d) = k.appraisals.find? (route, d)
  settings : ∃ appraisals, after = { k with appraisals }

/-- Secured traffic gets the viable candidates in the order given, and the mark of the destination is
cleared. Where there are candidates but none is viable it gets none, and the mark is set. Without
candidates nothing changes. -/
inductive Selected (k : KeyAware) (destination : NodeId) (links : Links) (now : Millis)
    (cs : List Candidate) : Selection → KeyAware → Prop where
  | noRoute (hnil : cs = []) : Selected k destination links now cs .noRoute k
  | routes {ranked rs : List RankedRoute} {checked : KeyAware} {unreachable : Table NodeId Unit}
      (hranking : k.Ranking .secured links now cs ranked checked)
      (hsome : ∃ x ∈ cs, k.fits .secured links x = true)
      (hrs : rs = ranked.filter (·.appraisal.viable))
      (horder : rs.map (·.candidate) = cs.filter (k.fits .secured links))
      (hmarks : ∀ e, unreachable.contains e = (decide (e ≠ destination) && k.isUnreachable e)) :
      Selected k destination links now cs (.routes rs) { checked with unreachable }
  | noViableRoute {ranked : List RankedRoute} {checked : KeyAware}
      {unreachable : Table NodeId Unit}
      (hranking : k.Ranking .secured links now cs ranked checked) (hne : cs ≠ [])
      (hnone : ∀ x ∈ cs, k.fits .secured links x = false)
      (horder : ranked.map (·.candidate) = cs)
      (hmarks : ∀ e, unreachable.contains e = (decide (e = destination) || k.isUnreachable e)) :
      Selected k destination links now cs (.noViableRoute ranked) { checked with unreachable }

variable (k : KeyAware) (c : TrafficClass) (links : Links) (now : Millis) (cs : List Candidate)

/-! ## The record -/

/-- Once some candidates have been checked, their routes are on record with what a check finds. It
does not matter how often a route is among them. -/
theorem find?_checkAll (buffers : LinkKey → Option KeyBuffer) (route : Route) (d : TrafficClass) :
    (k.checkAll c buffers now cs).appraisals.find? (route, d) =
      if d = c ∧ ∃ x ∈ cs, x.route = route then
        some (.evaluate route c (buffers (route.link k.home)) (k.least c) now k.epoch)
      else k.appraisals.find? (route, d) := by
  have hrecord : ∀ found : Table (Route × TrafficClass) Appraisal,
      (cs.foldl (fun found x => found.insert (x.route, c)
          (.evaluate x.route c (buffers (x.route.link k.home)) (k.least c) now k.epoch))
        found).find? (route, d) =
      if d = c ∧ ∃ x ∈ cs, x.route = route then
        some (.evaluate route c (buffers (route.link k.home)) (k.least c) now k.epoch)
      else found.find? (route, d) := by
    induction cs with
    | nil => simp
    | cons x xs ih =>
      intro found
      rw [List.foldl_cons, ih, Table.find?_insert]
      by_cases hlater : d = c ∧ ∃ y ∈ xs, y.route = route
      · obtain ⟨hd, y, hy, hroute⟩ := hlater
        rw [if_pos ⟨hd, y, hy, hroute⟩, if_pos ⟨hd, y, List.mem_cons_of_mem _ hy, hroute⟩]
      · rw [if_neg hlater]
        by_cases hhere : (route, d) = (x.route, c)
        · cases hhere
          rw [if_pos rfl, if_pos ⟨rfl, x, List.mem_cons_self, rfl⟩]
        · have hnone : ¬(d = c ∧ ∃ y ∈ x :: xs, y.route = route) := by
            rintro ⟨rfl, y, hy, rfl⟩
            rcases List.mem_cons.1 hy with rfl | hy
            · exact hhere rfl
            · exact hlater ⟨rfl, y, hy, rfl⟩
          rw [if_neg hhere, if_neg hnone]
  exact hrecord k.appraisals

/-! ## The ranking -/

/-- The candidates whose check has an outcome, without what the check found. -/
theorem map_candidate_filter (p : RankedRoute → Bool) :
    (((cs.map fun x => (⟨x, k.evaluate x.route c links now⟩ : RankedRoute)).filter p).map
      (·.candidate)) = cs.filter fun x => p ⟨x, k.evaluate x.route c links now⟩ := by
  rw [List.filter_map, List.map_map]
  exact List.map_id _

theorem mem_rank_iff {r : RankedRoute} :
    r ∈ (k.rank cs c links now).1 ↔
      ∃ x ∈ cs, r = ⟨x, k.evaluate x.route c links now⟩ := by
  show r ∈ (k.appraiseAll c links now cs).1.mergeSort RankedRoute.mayPrecede ↔ _
  rw [List.mem_mergeSort, appraiseAll_eq, List.mem_map]
  simp only [eq_comm]

theorem ranking :
    k.Ranking c links now cs (k.rank cs c links now).1 (k.rank cs c links now).2 := by
  have hafter : (k.rank cs c links now).2 = k.checkAll c links.buffer? now cs :=
    k.appraiseAll_checkAll c links now cs
  constructor
  case arranged =>
    rw [rank_eq, List.map_append, map_candidate_filter, map_candidate_filter]
    exact List.filter_append_perm _ cs
  case viableFirst =>
    exact (List.pairwise_mergeSort RankedRoute.mayPrecede_trans RankedRoute.mayPrecede_total _).imp
      RankedRoute.mayPrecede_iff.1
  case viable =>
    rw [k.filter_rank fun _ _ ha _ => RankedRoute.mayPrecede_of_viable ha, map_candidate_filter]
    rfl
  case others =>
    rw [k.filter_rank fun _ _ _ hb => RankedRoute.mayPrecede_of_not_viable hb,
      map_candidate_filter]
    rfl
  case appraised =>
    intro r hr
    obtain ⟨x, -, rfl⟩ := (k.mem_rank_iff c links now cs).1 hr
    rfl
  case recorded =>
    intro r hr
    obtain ⟨x, hx, rfl⟩ := (k.mem_rank_iff c links now cs).1 hr
    rw [hafter, appraisal?, find?_checkAll, if_pos ⟨rfl, x, hx, rfl⟩]
    exact Option.filter_eq_some_iff.2 ⟨rfl, decide_eq_true rfl⟩
  case kept =>
    intro route d hother
    rw [hafter, find?_checkAll, if_neg]
    rintro ⟨rfl, x, hx, hroute⟩
    exact hother rfl x hx hroute
  case settings => exact ⟨_, hafter⟩

/-! ## The selection -/

variable {k c links now cs} in
/-- Without viable candidates a ranking keeps the order given. -/
theorem Ranking.map_candidate_eq {ranked : List RankedRoute} {after : KeyAware}
    (h : k.Ranking c links now cs ranked after)
    (hnone : ranked.filter (·.appraisal.viable) = []) :
    ranked.map (·.candidate) = cs ∧ ∀ x ∈ cs, k.fits c links x = false := by
  have hviable := h.viable
  rw [hnone, List.map_nil, eq_comm, List.filter_eq_nil_iff] at hviable
  have hfits : ∀ x ∈ cs, k.fits c links x = false := fun x hx => by simpa using hviable x hx
  have hall : ranked.filter (!·.appraisal.viable) = ranked := by
    rw [List.filter_eq_self]
    intro r hr
    have hnot := List.filter_eq_nil_iff.1 hnone r hr
    simpa using hnot
  have hothers := h.others
  rw [hall, List.filter_eq_self.2 fun x hx => by simp [hfits x hx]] at hothers
  exact ⟨hothers, hfits⟩

theorem selected (destination : NodeId) :
    k.Selected destination links now cs (k.select destination cs links now).1
      (k.select destination cs links now).2 := by
  by_cases hnil : cs = []
  · subst hnil
    exact .noRoute rfl
  · have hne : cs.isEmpty = false := List.isEmpty_eq_false_iff.2 hnil
    have hranking := k.ranking .secured links now cs
    obtain ⟨appraisals, hafter⟩ := hranking.settings
    simp only [select, hne, Bool.false_eq_true, if_false]
    split
    · rename_i hnone
      obtain ⟨horder, hfits⟩ := hranking.map_candidate_eq (List.isEmpty_iff.1 hnone)
      refine .noViableRoute hranking hnil hfits horder fun e => ?_
      rw [hafter, Table.contains_eq_isSome, Table.find?_insert]
      by_cases he : e = destination
      · simp [he]
      · simp [he, isUnreachable, Table.contains_eq_isSome]
    · rename_i hsome
      refine .routes hranking ?_ rfl hranking.viable fun e => ?_
      · obtain ⟨r, hr⟩ := List.exists_mem_of_ne_nil _ fun h => hsome (List.isEmpty_iff.2 h)
        have hx : r.candidate ∈ cs.filter (k.fits .secured links) :=
          hranking.viable ▸ List.mem_map_of_mem hr
        exact ⟨_, List.mem_filter.1 hx⟩
      · rw [hafter, Table.contains_eq_isSome, Table.find?_erase]
        by_cases he : e = destination
        · simp [he]
        · simp [he, isUnreachable, Table.contains_eq_isSome]

/-- Candidates are ranked by the live buffers of their first links, for whatever class of traffic.
Secured traffic to a destination gets the viable ones in the order given, and none where none is
viable, and the destination is marked accordingly. Only without candidates is it told that there is
no route. -/
theorem ranking_selected (destination : NodeId) :
    k.Ranking c links now cs (k.rank cs c links now).1 (k.rank cs c links now).2 ∧
      k.Selected destination links now cs (k.select destination cs links now).1
        (k.select destination cs links now).2 ∧
      ((k.select destination cs links now).1 = .noRoute ↔ cs = []) := by
  refine ⟨k.ranking c links now cs, k.selected links now cs destination, fun hroute => ?_, ?_⟩
  · have hselected := k.selected links now cs destination
    rw [hroute] at hselected
    generalize (k.select destination cs links now).2 = after at hselected
    cases hselected with
    | noRoute hnil => exact hnil
  · rintro rfl
    rfl

end KeyAware

end KeyReserve
