import KeyReserve.LazyAgenda
import KeyReserve.Proofs.PendingSet

/-!
# Cancelling lazily

The places of cancelled events stay in the line of a lazy agenda until they come up. They bear on
none of its answers: it answers as the agenda of its pending entries does, and hence as the plain
set of them.

## Main definitions

* `LazyAgenda.pending`: the entries that are still to happen, in order;
* `LazyAgenda.toAgenda`: the agenda that has cancelled at once;
* `LazyAgenda.answer`: what a lazy agenda answers to a query.

## Main results

* `LazyAgenda.answer_toAgenda`: a lazy agenda and the agenda of its pending entries answer alike;
* `LazyAgenda.refines_pendingSet`: to any queries in a row both answer as a plain set of entries.
-/

namespace KeyReserve

namespace Agenda

variable {α : Type}

theorem Entry.Before.asymm {a b : Entry α} (hab : a.Before b) (hba : b.Before a) : a = b :=
  absurd (hab.trans hba) (Entry.Before.irrefl a)

/-- Two agendas of the same entries have them in the same order. -/
theorem ext_mem {a b : Agenda α} (hnext : a.nextId = b.nextId)
    (h : ∀ e, e ∈ a.entries ↔ e ∈ b.entries) : a = b := by
  have hentries : a.entries = b.entries :=
    ((List.perm_ext_iff_of_nodup a.nodup_entries b.nodup_entries).2 h).eq_of_pairwise
      (fun _ _ _ _ => Entry.Before.asymm) a.ordered b.ordered
  cases a
  cases b
  cases hnext
  cases hentries
  rfl

end Agenda

namespace LazyAgenda

open Agenda (Entry Query Answer transcript after)

variable {α : Type} (a : LazyAgenda α)

/-- The answer of a lazy agenda to a query, and the agenda afterwards. -/
def answer : Query α → Answer α × LazyAgenda α
  | .schedule due event => (.scheduled (a.schedule due event).1, (a.schedule due event).2)
  | .cancel id => (.flag (a.cancel id).1, (a.cancel id).2)
  | .isPending id => (.flag (a.isPending id), a)
  | .nextTime => (.time a.nextTime?.1, a.nextTime?.2)
  | .pop => (.entry a.pop.1, a.pop.2)
  | .popDue now => (.entry (a.popDue now).1, (a.popDue now).2)
  | .size => (.count a.size, a)

/-! ## Pending entries -/

/-- The entries that are still to happen, the next one first. -/
def pending : List (Entry α) := a.slots.filterMap a.eventAt?

variable {a}

theorem eventAt?_eq_some_iff {s : Entry Unit} {e : Entry α} :
    a.eventAt? s = some e ↔ s.due = e.due ∧ s.id = e.id ∧ a.events.find? e.id = some e.event := by
  rw [eventAt?, Option.map_eq_some_iff]
  constructor
  · rintro ⟨event, hevent, rfl⟩
    exact ⟨rfl, rfl, hevent⟩
  · rintro ⟨hdue, hid, hevent⟩
    exact ⟨e.event, hid ▸ hevent, by rw [hdue, hid]⟩

theorem mem_pending {e : Entry α} : e ∈ a.pending ↔
    (∃ s ∈ a.slots, s.due = e.due ∧ s.id = e.id) ∧ a.events.find? e.id = some e.event := by
  simp only [pending, List.mem_filterMap, eventAt?_eq_some_iff]
  constructor
  · rintro ⟨s, hs, hdue, hid, hevent⟩
    exact ⟨⟨s, hs, hdue, hid⟩, hevent⟩
  · rintro ⟨⟨s, hs, hdue, hid⟩, hevent⟩
    exact ⟨s, hs, hdue, hid, hevent⟩

variable (a)

/-- The agenda that has taken out what was cancelled at once. -/
def toAgenda : Agenda α where
  entries := a.pending
  nextId := a.nextId
  ordered := by
    refine a.ordered.filterMap a.eventAt? fun s t hbefore e he f hf => ?_
    obtain ⟨hdue, hid, -⟩ := eventAt?_eq_some_iff.1 he
    obtain ⟨hdue', hid', -⟩ := eventAt?_eq_some_iff.1 hf
    simpa only [Entry.Before, hdue, hid, hdue', hid'] using hbefore
  numbered e he := by
    obtain ⟨⟨s, hs, -, hid⟩, -⟩ := mem_pending.1 he
    exact hid ▸ a.numbered s hs

theorem nodup_ids : (a.pending.map (·.id)).Nodup := by
  refine List.pairwise_map.2 (a.distinct.filterMap a.eventAt? fun s t hne e he f hf => ?_)
  rw [← (eventAt?_eq_some_iff.1 he).2.1, ← (eventAt?_eq_some_iff.1 hf).2.1]
  exact hne

/-- The pending numbers are those under which there are events. -/
theorem mem_ids {id : TimerId} : id ∈ a.pending.map (·.id) ↔ a.events.contains id = true := by
  rw [List.mem_map, Table.contains, Option.isSome_iff_exists]
  constructor
  · rintro ⟨e, he, rfl⟩
    exact ⟨e.event, (mem_pending.1 he).2⟩
  · rintro ⟨event, hevent⟩
    obtain ⟨s, hs, rfl⟩ := a.placed id (Option.isSome_iff_exists.2 ⟨event, hevent⟩)
    exact ⟨⟨s.due, s.id, event⟩, mem_pending.2 ⟨⟨s, hs, rfl, rfl⟩, hevent⟩, rfl⟩

theorem isPending_toAgenda (id : TimerId) : a.toAgenda.isPending id = a.isPending id := by
  rw [Bool.eq_iff_iff, isPending, ← a.mem_ids]
  simp [Agenda.isPending, toAgenda]

theorem size_toAgenda : a.toAgenda.size = a.size := by
  have hkeys : a.events.keys.Nodup := by
    refine a.events.keys_pairwise.imp ?_
    rintro id _ hlt rfl
    exact Nat.lt_irrefl _ hlt
  have hperm : (a.pending.map (·.id)).Perm a.events.keys := by
    refine (List.perm_ext_iff_of_nodup a.nodup_ids hkeys).2 fun id => ?_
    rw [a.mem_ids, Table.mem_keys_iff, Table.contains]
  have hlength : a.pending.length = a.events.entries.length := by
    simpa [Table.keys] using hperm.length_eq
  exact hlength

theorem schedule_toAgenda (due : Millis) (event : α) :
    (a.schedule due event).2.toAgenda = (a.toAgenda.schedule due event).2 := by
  refine Agenda.ext_mem rfl fun e => ?_
  have hslots : ∀ s, s ∈ (a.schedule due event).2.slots ↔ s = ⟨due, ⟨a.nextId⟩, ()⟩ ∨ s ∈ a.slots :=
    fun s => Agenda.mem_place
  have hevents : (a.schedule due event).2.events.find? e.id =
      if e.id = ⟨a.nextId⟩ then some event else a.events.find? e.id := a.events.find?_insert _ _ _
  rw [Agenda.mem_schedule]
  show e ∈ (a.schedule due event).2.pending ↔ e = ⟨due, ⟨a.nextId⟩, event⟩ ∨ e ∈ a.pending
  rw [mem_pending, mem_pending, hevents]
  by_cases hid : e.id = ⟨a.nextId⟩
  · have hnew : ∀ s ∈ a.slots, s.id ≠ e.id := fun s hs heq =>
      Nat.ne_of_lt (a.numbered s hs) (congrArg TimerId.val (heq.trans hid))
    rw [if_pos hid]
    constructor
    · rintro ⟨⟨s, hs, hdue, hsid⟩, hevent⟩
      rcases (hslots s).1 hs with rfl | hs
      · cases e
        cases hdue
        cases hsid
        cases hevent
        exact .inl rfl
      · exact absurd hsid (hnew s hs)
    · rintro (rfl | ⟨⟨s, hs, -, hsid⟩, -⟩)
      · exact ⟨⟨_, (hslots _).2 (.inl rfl), rfl, rfl⟩, rfl⟩
      · exact absurd hsid (hnew s hs)
  · rw [if_neg hid]
    constructor
    · rintro ⟨⟨s, hs, hdue, hsid⟩, hevent⟩
      rcases (hslots s).1 hs with rfl | hs
      · exact absurd hsid.symm hid
      · exact .inr ⟨⟨s, hs, hdue, hsid⟩, hevent⟩
    · rintro (rfl | ⟨⟨s, hs, hdue, hsid⟩, hevent⟩)
      · exact absurd rfl hid
      · exact ⟨⟨s, (hslots s).2 (.inr hs), hdue, hsid⟩, hevent⟩

theorem cancel_toAgenda (id : TimerId) : (a.cancel id).2.toAgenda = a.toAgenda.cancel id := by
  refine Agenda.ext_mem rfl fun e => ?_
  have hevents : (a.cancel id).2.events.find? e.id =
      if e.id = id then none else a.events.find? e.id := a.events.find?_erase id e.id
  rw [Agenda.mem_cancel]
  show e ∈ (a.cancel id).2.pending ↔ e ∈ a.pending ∧ e.id ≠ id
  rw [mem_pending, mem_pending, hevents]
  split <;> simp_all [cancel]

/-! ## Places at the front -/

theorem skip_toAgenda : a.skip.toAgenda = a.toAgenda := by
  refine Agenda.ext_mem rfl fun e => ?_
  show e ∈ a.skip.pending ↔ e ∈ a.pending
  rw [mem_pending, mem_pending]
  refine and_congr_left fun hevent => ?_
  constructor
  · rintro ⟨s, hs, h⟩
    exact ⟨s, (List.dropWhile_sublist _).subset hs, h⟩
  · rintro ⟨s, hs, hdue, hid⟩
    have hpending : a.events.contains s.id = true := by
      rw [hid]
      exact Option.isSome_iff_exists.2 ⟨e.event, hevent⟩
    exact ⟨s, mem_dropWhile hs hpending, hdue, hid⟩

theorem pending_skip_of_nil (h : a.skip.slots = []) : a.pending = [] := by
  have hskip : a.skip.pending = [] := by rw [pending, h, List.filterMap_nil]
  exact (congrArg Agenda.entries a.skip_toAgenda).symm.trans hskip

/-- The place at the front, once the others have been passed over, is that of the next pending
entry, which goes when the place does. -/
theorem pending_skip_of_cons {s : Entry Unit} {ss : List (Entry Unit)}
    (h : a.skip.slots = s :: ss) :
    ∃ e, a.skip.eventAt? s = some e ∧ e.due = s.due ∧
      a.pending = e :: a.skip.dropFront.pending := by
  have hcontains : a.events.contains s.id = true := contains_of_mem_head?_skip (by rw [h]; rfl)
  obtain ⟨event, hevent⟩ := Option.isSome_iff_exists.1 hcontains
  have hentry : a.skip.eventAt? s = some ⟨s.due, s.id, event⟩ :=
    eventAt?_eq_some_iff.2 ⟨rfl, rfl, hevent⟩
  have hdistinct := a.skip.distinct
  rw [h, List.pairwise_cons] at hdistinct
  have hrest : ss.filterMap a.skip.dropFront.eventAt? = ss.filterMap a.skip.eventAt? := by
    refine List.filterMap_congr fun x hx => ?_
    simp only [eventAt?, dropFront, h, List.head?_cons, Table.find?_erase,
      if_neg (hdistinct.1 x hx).symm]
  have hslots : a.skip.dropFront.slots = ss := congrArg List.tail h
  refine ⟨_, hentry, rfl, ?_⟩
  calc a.pending
    _ = a.skip.pending := (congrArg Agenda.entries a.skip_toAgenda).symm
    _ = ⟨s.due, s.id, event⟩ :: ss.filterMap a.skip.eventAt? := by
      rw [pending, h, List.filterMap_cons_some hentry]
    _ = _ := by rw [pending, hslots, hrest]

theorem nextTime?_toAgenda : a.toAgenda.nextTime? = a.nextTime?.1 := by
  show a.pending.head?.map (·.due) = a.skip.slots.head?.map (·.due)
  cases h : a.skip.slots with
  | nil => rw [a.pending_skip_of_nil h]; rfl
  | cons s ss =>
    obtain ⟨e, -, hdue, hpending⟩ := a.pending_skip_of_cons h
    rw [hpending]
    exact congrArg some hdue

theorem pop_toAgenda : (a.toAgenda.took a.toAgenda.pop) = (.entry a.pop.1, a.pop.2.toAgenda) := by
  cases h : a.skip.slots with
  | nil =>
    have hlazy : a.pop = (none, a.skip.dropFront) := by simp [pop, h]
    have hpending : a.toAgenda.entries = [] := a.pending_skip_of_nil h
    have hslots : a.skip.dropFront.slots = [] := congrArg List.tail h
    have hsame : a.skip.dropFront.toAgenda = a.toAgenda := by
      refine Agenda.ext_mem rfl fun e => ?_
      show e ∈ a.skip.dropFront.pending ↔ e ∈ a.pending
      rw [a.pending_skip_of_nil h, pending, hslots, List.filterMap_nil]
    rw [Agenda.pop_of_nil hpending, hlazy, hsame]
    rfl
  | cons s ss =>
    obtain ⟨e, hentry, -, hpending⟩ := a.pending_skip_of_cons h
    have hlazy : a.pop = (some e, a.skip.dropFront) := by simp [pop, h, hentry]
    obtain ⟨b, hpop, hentries, hnext⟩ := Agenda.pop_of_cons (a := a.toAgenda) hpending
    have hsame : b = a.skip.dropFront.toAgenda :=
      Agenda.ext_mem hnext fun x => by rw [hentries]; rfl
    rw [hpop, hlazy, hsame]
    rfl

theorem popDue_toAgenda (now : Millis) :
    a.toAgenda.took (a.toAgenda.popDue now) =
      (.entry (a.popDue now).1, (a.popDue now).2.toAgenda) := by
  have htime := a.nextTime?_toAgenda
  have hnext : a.nextTime? = (a.nextTime?.1, a.skip) := rfl
  rw [Agenda.popDue, htime, popDue, hnext]
  cases a.nextTime?.1 with
  | none => exact congrArg (Prod.mk _) a.skip_toAgenda.symm
  | some due =>
    by_cases hle : due ≤ now
    · simp only [hle, if_true]
      rw [← a.skip_toAgenda]
      exact a.skip.pop_toAgenda
    · simp only [hle, if_false]
      exact congrArg (Prod.mk _) a.skip_toAgenda.symm

/-! ## Answers -/

/-- A lazy agenda and the agenda of its pending entries answer every query alike, and the pending
entries afterwards are the same. -/
theorem answer_toAgenda (q : Query α) :
    (a.answer q).1 = (a.toAgenda.answer q).1 ∧
      (a.answer q).2.toAgenda = (a.toAgenda.answer q).2 := by
  cases q with
  | schedule due event => exact ⟨rfl, a.schedule_toAgenda due event⟩
  | cancel id => exact ⟨congrArg Answer.flag (a.isPending_toAgenda id).symm, a.cancel_toAgenda id⟩
  | isPending id => exact ⟨congrArg Answer.flag (a.isPending_toAgenda id).symm, rfl⟩
  | nextTime => exact ⟨congrArg Answer.time a.nextTime?_toAgenda.symm, a.skip_toAgenda⟩
  | pop => exact Prod.ext_iff.1 a.pop_toAgenda.symm
  | popDue now => exact Prod.ext_iff.1 (a.popDue_toAgenda now).symm
  | size => exact ⟨congrArg Answer.count a.size_toAgenda.symm, rfl⟩

/-- To any queries in a row, an agenda that cancels lazily and one that cancels at once give the
answers of a plain set of pending entries. Every entry that is ever scheduled is taken out once, or
cancelled once, or still pending, and of these only one; entries due together are taken in the order
of scheduling. -/
theorem refines_pendingSet (qs : List (Query α)) :
    transcript answer empty qs = transcript PendingSet.answer .empty qs ∧
      transcript Agenda.answer .empty qs = transcript PendingSet.answer .empty qs ∧
      Agenda.Accounted .empty (transcript answer empty qs) (after answer empty qs).pending := by
  have hset := Agenda.transcript_eq (fun _ _ q h => Agenda.answer_pendingSet h q)
    (s := (Agenda.empty : Agenda α)) (t := .empty) ⟨.refl _, rfl, .nil⟩ qs
  have hlazy := Agenda.transcript_eq (R := fun (a : LazyAgenda α) b => a.toAgenda = b)
    (fun a _ q h => h ▸ a.answer_toAgenda q) (s := empty) (t := .empty) rfl qs
  have hleft : (after answer empty qs).pending = (after Agenda.answer .empty qs).entries :=
    congrArg Agenda.entries hlazy.2
  refine ⟨hlazy.1.trans hset.1, hset.1, ?_⟩
  rw [hlazy.1, hleft]
  exact Agenda.accounted (a := .empty) List.nodup_nil qs

end LazyAgenda

end KeyReserve
