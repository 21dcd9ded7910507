import KeyReserve.Proofs.Clock
import Mathlib.Data.List.Nodup

/-!
# Agendas as sets of pending entries

What an agenda answers does not depend on how it keeps its entries in order. It can be told from a
plain set of entries: scheduling puts one in with the next number, cancelling takes the one of a
number out, and taking the next one looks through them all for the least time and, among equal
times, the least number.

## Main definitions

* `Agenda.Query`, `Agenda.Answer`: what an agenda is asked, and what it answers;
* `Agenda.transcript`, `Agenda.after`: queries in a row;
* `PendingSet`: entries in no order;
* `Agenda.Accounted`: what becomes of all that is scheduled.

## Main results

* `Agenda.answer_pendingSet`: an agenda answers as the set of its entries does;
* `Agenda.accounted`: every entry is taken once, or cancelled, or still pending.
-/

namespace KeyReserve

namespace Agenda

variable {α : Type}

instance (a b : Entry α) : Decidable (a.Before b) := inferInstanceAs (Decidable (_ ∨ _))

theorem Entry.Before.trans {a b c : Entry α} (hab : a.Before b) (hbc : b.Before c) :
    a.Before c := by
  rcases hab with hab | ⟨hab, hab'⟩
  · rcases hbc with hbc | ⟨hbc, -⟩
    · exact .inl (UInt64.lt_trans hab hbc)
    · exact .inl (hbc ▸ hab)
  · rcases hbc with hbc | ⟨hbc, hbc'⟩
    · exact .inl (hab ▸ hbc)
    · exact .inr ⟨hab.trans hbc, Nat.lt_trans hab' hbc'⟩

theorem Entry.Before.irrefl (a : Entry α) : ¬ a.Before a := by
  rintro (h | ⟨-, h⟩)
  · exact UInt64.lt_irrefl _ h
  · exact Nat.lt_irrefl _ h

/-! ## Queries -/

/-- What an agenda is asked. -/
inductive Query (α : Type) where
  | schedule (due : Millis) (event : α)
  | cancel (id : TimerId)
  | isPending (id : TimerId)
  | nextTime
  | pop
  | popDue (now : Millis)
  | size

/-- What an agenda answers. -/
inductive Answer (α : Type) where
  | scheduled (id : TimerId)
  | flag (b : Bool)
  | time (due : Option Millis)
  | entry (e : Option (Entry α))
  | count (n : Nat)
  deriving DecidableEq

section Transcript

variable {σ τ : Type} (answer : σ → Query α → Answer α × σ)

/-- Queries in a row with their answers, of anything that answers one at a time. -/
def transcript (s : σ) : List (Query α) → List (Query α × Answer α)
  | [] => []
  | q :: qs => (q, (answer s q).1) :: transcript (answer s q).2 qs

/-- What is left after queries in a row. -/
def after (s : σ) (qs : List (Query α)) : σ := qs.foldl (fun s q => (answer s q).2) s

variable {answer}

/-- What answers each query alike, and stays alike, cannot be told apart by queries in a row. -/
theorem transcript_eq {answer' : τ → Query α → Answer α × τ} {R : σ → τ → Prop}
    (hstep : ∀ s t q, R s t → (answer s q).1 = (answer' t q).1 ∧ R (answer s q).2 (answer' t q).2)
    {s : σ} {t : τ} (h : R s t) (qs : List (Query α)) :
    transcript answer s qs = transcript answer' t qs ∧
      R (after answer s qs) (after answer' t qs) := by
  induction qs generalizing s t with
  | nil => exact ⟨rfl, h⟩
  | cons q qs ih =>
    obtain ⟨hanswer, hnext⟩ := hstep s t q h
    obtain ⟨hrest, hlast⟩ := ih hnext
    exact ⟨by rw [transcript, transcript, hanswer, hrest], hlast⟩

end Transcript

/-- An entry that is taken out, if there is one, and the agenda afterwards. -/
def took (a : Agenda α) : Option (Entry α × Agenda α) → Answer α × Agenda α
  | some (e, a) => (.entry (some e), a)
  | none => (.entry none, a)

/-- The answer of an agenda to a query, and the agenda afterwards. -/
def answer (a : Agenda α) : Query α → Answer α × Agenda α
  | .schedule due event => (.scheduled (a.schedule due event).1, (a.schedule due event).2)
  | .cancel id => (.flag (a.isPending id), a.cancel id)
  | .isPending id => (.flag (a.isPending id), a)
  | .nextTime => (.time a.nextTime?, a)
  | .pop => a.took a.pop
  | .popDue now => a.took (a.popDue now)
  | .size => (.count a.size, a)

end Agenda

/-! ## Sets of entries -/

/-- Pending entries in no order, and the number of the next one. -/
structure PendingSet (α : Type) where
  entries : List (Agenda.Entry α)
  nextId : Nat

namespace PendingSet

open Agenda (Entry Query Answer)

variable {α : Type}

/-- The set of which nothing has been asked. -/
def empty : PendingSet α := ⟨[], 0⟩

/-- The entry that comes before all others. -/
def least? : List (Entry α) → Option (Entry α)
  | [] => none
  | e :: es =>
    match least? es with
    | none => some e
    | some x => if e.Before x then some e else some x

/-- Takes the entry that comes before all others out. -/
def pop (s : PendingSet α) : Option (Entry α) × PendingSet α :=
  match least? s.entries with
  | some e => (some e, { s with entries := s.entries.filter (·.id ≠ e.id) })
  | none => (none, s)

/-- The answer of a set of entries to a query, and the set afterwards. -/
def answer (s : PendingSet α) : Query α → Answer α × PendingSet α
  | .schedule due event =>
    (.scheduled ⟨s.nextId⟩, ⟨⟨due, ⟨s.nextId⟩, event⟩ :: s.entries, s.nextId + 1⟩)
  | .cancel id =>
    (.flag (s.entries.any (·.id = id)), { s with entries := s.entries.filter (·.id ≠ id) })
  | .isPending id => (.flag (s.entries.any (·.id = id)), s)
  | .nextTime => (.time ((least? s.entries).map (·.due)), s)
  | .pop => (.entry s.pop.1, s.pop.2)
  | .popDue now =>
    if (least? s.entries).any (·.due ≤ now) then (.entry s.pop.1, s.pop.2) else (.entry none, s)
  | .size => (.count s.entries.length, s)

theorem least?_eq_none {es : List (Entry α)} (h : least? es = none) : es = [] := by
  cases es with
  | nil => rfl
  | cons e es =>
    simp only [least?] at h
    split at h
    · cases h
    · split at h <;> cases h

theorem least?_spec {es : List (Entry α)} {e : Entry α} (h : least? es = some e) :
    e ∈ es ∧ ∀ x ∈ es, ¬ x.Before e := by
  induction es generalizing e with
  | nil => cases h
  | cons y ys ih =>
    simp only [least?] at h
    split at h
    · rename_i hnone
      cases h
      rw [least?_eq_none hnone]
      simp [Entry.Before.irrefl]
    · rename_i z hz
      obtain ⟨hmem, hleast⟩ := ih hz
      split at h
      · rename_i hbefore
        cases h
        refine ⟨List.mem_cons_self, List.forall_mem_cons.2 ⟨Entry.Before.irrefl y, ?_⟩⟩
        exact fun x hx hxy => hleast x hx (hxy.trans hbefore)
      · rename_i hbefore
        cases h
        exact ⟨List.mem_cons_of_mem y hmem, List.forall_mem_cons.2 ⟨hbefore, hleast⟩⟩

/-- Among the same entries in order, the least one is at the front. -/
theorem least?_of_perm {es fs : List (Entry α)} (hperm : es.Perm fs)
    (hordered : fs.Pairwise Entry.Before) : least? es = fs.head? := by
  cases hleast : least? es with
  | none =>
    rw [least?_eq_none hleast] at hperm
    rw [hperm.symm.eq_nil]
    rfl
  | some e =>
    obtain ⟨hmem, hnot⟩ := least?_spec hleast
    cases fs with
    | nil => cases hperm.subset hmem
    | cons f fs =>
      rcases List.mem_cons.1 (hperm.subset hmem) with rfl | he
      · rfl
      · exact absurd ((List.pairwise_cons.1 hordered).1 e he)
          (hnot f (hperm.symm.subset List.mem_cons_self))

end PendingSet

namespace Agenda

variable {α : Type}

/-! ## An agenda and the set of its entries -/

/-- A set keeps the entries of an agenda, no two of which share a number. -/
structure Holds (a : Agenda α) (s : PendingSet α) : Prop where
  perm : s.entries.Perm a.entries
  nextId : s.nextId = a.nextId
  distinct : (a.entries.map (·.id)).Nodup

variable {a : Agenda α} {s : PendingSet α}

theorem distinct_schedule (h : (a.entries.map (·.id)).Nodup) (due : Millis) (event : α) :
    ((a.schedule due event).2.entries.map (·.id)).Nodup := by
  have hperm := (place_perm ⟨due, ⟨a.nextId⟩, event⟩ a.entries).map (·.id)
  refine hperm.nodup_iff.2 (List.nodup_cons.2 ⟨?_, h⟩)
  rintro hmem
  obtain ⟨x, hx, hid⟩ := List.mem_map.1 hmem
  exact Nat.ne_of_lt (a.numbered x hx) (congrArg TimerId.val hid)

theorem Holds.least? (h : a.Holds s) : PendingSet.least? s.entries = a.entries.head? :=
  PendingSet.least?_of_perm h.perm a.ordered

theorem Holds.any (h : a.Holds s) (id : TimerId) : s.entries.any (·.id = id) = a.isPending id :=
  h.perm.any_eq

theorem pop_of_nil (h : a.entries = []) : a.pop = none := by
  cases hpop : a.pop with
  | none => rfl
  | some r => exact absurd (pop_eq_some hpop) (by simp [h])

theorem pop_of_cons {e : Entry α} {es : List (Entry α)} (h : a.entries = e :: es) :
    ∃ b, a.pop = some (e, b) ∧ b.entries = es ∧ b.nextId = a.nextId := by
  cases hpop : a.pop with
  | none =>
    simp only [pop] at hpop
    split at hpop
    · rename_i hnil
      cases h.symm.trans hnil
    · cases hpop
  | some r =>
    obtain ⟨x, b⟩ := r
    obtain ⟨rfl, rfl⟩ := List.cons.inj (h.symm.trans (pop_eq_some hpop))
    exact ⟨b, rfl, rfl, nextId_pop hpop⟩

/-- The set takes out the entry that is at the front of the agenda. -/
theorem Holds.pop (h : a.Holds s) :
    (a.took a.pop).1 = .entry s.pop.1 ∧ (a.took a.pop).2.Holds s.pop.2 := by
  cases hentries : a.entries with
  | nil =>
    have hleast := h.least?
    rw [hentries] at hleast
    simp only [PendingSet.pop, hleast, pop_of_nil hentries]
    exact ⟨rfl, h⟩
  | cons e es =>
    obtain ⟨b, hpop, rfl, hnext⟩ := pop_of_cons hentries
    have hleast := h.least?
    rw [hentries] at hleast
    have hdistinct := h.distinct
    rw [hentries, List.map_cons, List.nodup_cons] at hdistinct
    have hothers : (a.entries.filter (·.id ≠ e.id)) = b.entries := by
      rw [hentries, List.filter_cons_of_neg (by simp), List.filter_eq_self]
      intro x hx
      rw [decide_eq_true_eq]
      intro hid
      exact hdistinct.1 (List.mem_map.2 ⟨x, hx, hid⟩)
    simp only [PendingSet.pop, hleast, List.head?_cons, hpop]
    exact ⟨rfl, hothers ▸ h.perm.filter _, h.nextId.trans hnext.symm, hdistinct.2⟩

/-- An agenda answers as the set of its entries does, and holds the same entries afterwards. -/
theorem answer_pendingSet (h : a.Holds s) (q : Query α) :
    (a.answer q).1 = (s.answer q).1 ∧ (a.answer q).2.Holds (s.answer q).2 := by
  cases q with
  | schedule due event =>
    refine ⟨by simp only [answer, PendingSet.answer, h.nextId]; rfl, ?_, ?_, ?_⟩
    · simp only [answer, PendingSet.answer, h.nextId]
      exact (h.perm.cons _).trans (place_perm _ _).symm
    · exact congrArg (· + 1) h.nextId
    · exact distinct_schedule h.distinct due event
  | cancel id =>
    refine ⟨congrArg Answer.flag (h.any id).symm, h.perm.filter _, h.nextId, ?_⟩
    exact h.distinct.sublist (List.filter_sublist.map _)
  | isPending id => exact ⟨congrArg Answer.flag (h.any id).symm, h⟩
  | nextTime =>
    refine ⟨?_, h⟩
    simp only [answer, PendingSet.answer, h.least?, nextTime?]
  | pop => exact h.pop
  | popDue now =>
    have hdue : (PendingSet.least? s.entries).any (·.due ≤ now) = a.nextTime?.any (· ≤ now) := by
      rw [h.least?, nextTime?, Option.any_map]
    simp only [answer, PendingSet.answer, popDue, hdue]
    cases a.nextTime? with
    | none => exact ⟨rfl, h⟩
    | some due =>
      by_cases hle : due ≤ now
      · simpa [hle] using h.pop
      · simpa [hle, took] using h
  | size => exact ⟨congrArg Answer.count h.perm.length_eq.symm, h⟩

/-! ## What becomes of the entries -/

/-- The entries that are scheduled in a transcript. -/
def scheduledIn (ts : List (Query α × Answer α)) : List (Entry α) :=
  ts.filterMap fun
    | (.schedule due event, .scheduled id) => some ⟨due, id, event⟩
    | _ => none

/-- The entries that are taken out. -/
def takenIn (ts : List (Query α × Answer α)) : List (Entry α) :=
  ts.filterMap fun
    | (_, .entry e) => e
    | _ => none

/-- The numbers that are cancelled with success. -/
def cancelledIn (ts : List (Query α × Answer α)) : List TimerId :=
  ts.filterMap fun
    | (.cancel id, .flag true) => some id
    | _ => none

/-- What becomes of the entries that are pending at first, and of those that are scheduled in a
transcript, when some are left in the end. -/
structure Accounted (a : Agenda α) (ts : List (Query α × Answer α)) (left : List (Entry α)) :
    Prop where
  /-- Numbers are given out in order. -/
  numbered : (scheduledIn ts).map (·.id.val) = List.range' a.nextId (scheduledIn ts).length
  /-- Every entry is taken, or cancelled, or left, and only one of these, and once. -/
  once : ((takenIn ts).map (·.id) ++ (cancelledIn ts ++ left.map (·.id))).Perm
    (a.entries.map (·.id) ++ (scheduledIn ts).map (·.id))
  /-- What is taken was scheduled, at that time and with that event. -/
  taken : ∀ e ∈ takenIn ts, e ∈ a.entries ++ scheduledIn ts
  left : ∀ e ∈ left, e ∈ a.entries ++ scheduledIn ts
  /-- Of two entries due together the one scheduled first is taken first. -/
  inOrder : (takenIn ts).Pairwise fun x y => x.due = y.due → x.id.val < y.id.val

/-- What a query does to the entries of an agenda. -/
inductive Step (a : Agenda α) : Query α × Answer α → Agenda α → Prop where
  | quiet {t : Query α × Answer α} (hscheduled : scheduledIn [t] = []) (htaken : takenIn [t] = [])
      (hcancelled : cancelledIn [t] = []) : Step a t a
  | schedule (due : Millis) (event : α) :
      Step a (.schedule due event, .scheduled ⟨a.nextId⟩) (a.schedule due event).2
  | cancel {id : TimerId} (h : a.isPending id = true) :
      Step a (.cancel id, .flag true) (a.cancel id)
  | take {q : Query α} {e : Entry α} {a' : Agenda α}
      (hscheduled : scheduledIn [(q, .entry (some e))] = [])
      (hentries : a.entries = e :: a'.entries) (hnext : a'.nextId = a.nextId) :
      Step a (q, .entry (some e)) a'

theorem cancel_eq_self {id : TimerId} (h : a.isPending id = false) : a.cancel id = a := by
  have hsame : a.entries.filter (·.id ≠ id) = a.entries := by
    refine List.filter_eq_self.2 fun e he => ?_
    simpa using List.any_eq_false.1 h e he
  cases a
  simp only [cancel, mk.injEq, and_true]
  exact hsame

theorem step_pop : a.Step (.pop, (a.answer .pop).1) (a.answer .pop).2 := by
  simp only [answer]
  cases hpop : a.pop with
  | none => exact .quiet rfl rfl rfl
  | some r => exact .take rfl (pop_eq_some hpop) (nextId_pop hpop)

theorem step_answer (a : Agenda α) (q : Query α) : a.Step (q, (a.answer q).1) (a.answer q).2 := by
  cases q with
  | schedule due event => exact .schedule due event
  | cancel id =>
    cases h : a.isPending id with
    | true =>
      simp only [answer, h]
      exact .cancel h
    | false =>
      simp only [answer, h, cancel_eq_self h]
      exact .quiet rfl rfl rfl
  | isPending id => exact .quiet rfl rfl rfl
  | nextTime => exact .quiet rfl rfl rfl
  | pop => exact step_pop
  | popDue now =>
    cases hpop : a.popDue now with
    | none =>
      simp only [answer, hpop]
      exact .quiet rfl rfl rfl
    | some r =>
      have hpop' : a.pop = some r := by
        simp only [popDue] at hpop
        split at hpop
        · split at hpop
          · exact hpop
          · cases hpop
        · cases hpop
      simp only [answer, hpop]
      exact .take rfl (pop_eq_some hpop') (nextId_pop hpop')
  | size => exact .quiet rfl rfl rfl

theorem scheduledIn_cons (t : Query α × Answer α) (ts : List (Query α × Answer α)) :
    scheduledIn (t :: ts) = scheduledIn [t] ++ scheduledIn ts := by
  rw [← List.singleton_append, scheduledIn, List.filterMap_append]
  rfl

theorem takenIn_cons (t : Query α × Answer α) (ts : List (Query α × Answer α)) :
    takenIn (t :: ts) = takenIn [t] ++ takenIn ts := by
  rw [← List.singleton_append, takenIn, List.filterMap_append]
  rfl

theorem cancelledIn_cons (t : Query α × Answer α) (ts : List (Query α × Answer α)) :
    cancelledIn (t :: ts) = cancelledIn [t] ++ cancelledIn ts := by
  rw [← List.singleton_append, cancelledIn, List.filterMap_append]
  rfl

theorem nextId_le_of_scheduledIn {ts : List (Query α × Answer α)} {left : List (Entry α)}
    (h : a.Accounted ts left) {e : Entry α} (he : e ∈ scheduledIn ts) : a.nextId ≤ e.id.val := by
  have hmem : e.id.val ∈ (scheduledIn ts).map (·.id.val) := List.mem_map.2 ⟨e, he, rfl⟩
  rw [h.numbered, List.mem_range'_1] at hmem
  exact hmem.1

/-- A number that is pending is taken out of the numbers of an agenda, which has it once. -/
theorem perm_cancel {id : TimerId} (hdistinct : (a.entries.map (·.id)).Nodup)
    (h : a.isPending id = true) :
    (a.entries.map (·.id)).Perm (id :: (a.cancel id).entries.map (·.id)) := by
  have hmem : id ∈ a.entries.map (·.id) := by
    obtain ⟨e, he, hid⟩ := List.any_eq_true.1 h
    exact List.mem_map.2 ⟨e, he, of_decide_eq_true hid⟩
  have herase : (a.entries.map (·.id)).erase id = (a.cancel id).entries.map (·.id) := by
    rw [hdistinct.erase_eq_filter, List.filter_map]
    exact congrArg _ (List.filter_congr fun e _ => Bool.eq_iff_iff.2 (by simp))
  exact herase ▸ List.perm_cons_erase hmem

theorem Step.distinct {t : Query α × Answer α} {a' : Agenda α} (h : a.Step t a')
    (hdistinct : (a.entries.map (·.id)).Nodup) : (a'.entries.map (·.id)).Nodup := by
  cases h with
  | quiet => exact hdistinct
  | schedule due event => exact distinct_schedule hdistinct due event
  | cancel => exact hdistinct.sublist (List.filter_sublist.map _)
  | take _ hentries =>
    rw [hentries] at hdistinct
    exact (List.nodup_cons.1 hdistinct).2

/-- What becomes of entries after a query is what becomes of them, with the one that the query puts
in, cancels or takes out. -/
theorem Accounted.cons {t : Query α × Answer α} {a' : Agenda α} {ts : List (Query α × Answer α)}
    {left : List (Entry α)} (hstep : a.Step t a') (hdistinct : (a.entries.map (·.id)).Nodup)
    (h : a'.Accounted ts left) : a.Accounted (t :: ts) left := by
  cases hstep with
  | quiet hscheduled htaken hcancelled =>
    have hscheduled' := scheduledIn_cons t ts
    have htaken' := takenIn_cons t ts
    have hcancelled' := cancelledIn_cons t ts
    rw [hscheduled, List.nil_append] at hscheduled'
    rw [htaken, List.nil_append] at htaken'
    rw [hcancelled, List.nil_append] at hcancelled'
    constructor
    · rw [hscheduled']
      exact h.numbered
    · rw [hscheduled', htaken', hcancelled']
      exact h.once
    · rw [hscheduled', htaken']
      exact h.taken
    · rw [hscheduled']
      exact h.left
    · rw [htaken']
      exact h.inOrder
  | schedule due event =>
    have hperm := place_perm ⟨due, ⟨a.nextId⟩, event⟩ a.entries
    have hsub : (a.schedule due event).2.entries ++ scheduledIn ts ⊆
        a.entries ++ ⟨due, ⟨a.nextId⟩, event⟩ :: scheduledIn ts :=
      ((hperm.append_right _).trans List.perm_middle.symm).subset
    constructor
    · rw [scheduledIn_cons]
      exact congrArg (a.nextId :: ·) h.numbered
    · refine h.once.trans (((hperm.map (·.id)).append_right _).trans ?_)
      exact List.perm_middle.symm
    · exact fun e he => hsub (h.taken e he)
    · exact fun e he => hsub (h.left e he)
    · exact h.inOrder
  | cancel hpending =>
    rename_i id
    have hperm := perm_cancel hdistinct hpending
    have hsub : (a.cancel id).entries ++ scheduledIn ts ⊆ a.entries ++ scheduledIn ts :=
      (List.filter_sublist.append_right _).subset
    constructor
    · exact h.numbered
    · rw [scheduledIn_cons, takenIn_cons, cancelledIn_cons]
      refine List.perm_middle.trans (((h.once.cons id).trans ?_))
      exact (hperm.append_right _).symm
    · exact fun e he => hsub (h.taken e he)
    · exact fun e he => hsub (h.left e he)
    · exact h.inOrder
  | take hscheduled hentries hnext =>
    rename_i q e
    have hscheduled' := scheduledIn_cons (q, .entry (some e)) ts
    rw [hscheduled, List.nil_append] at hscheduled'
    have hcancelled : cancelledIn ((q, .entry (some e)) :: ts) = cancelledIn ts := by
      cases q <;> rfl
    have htaken : takenIn ((q, .entry (some e)) :: ts) = e :: takenIn ts := rfl
    have hmem : ∀ x ∈ takenIn ts, e.due = x.due → e.id.val < x.id.val := by
      intro x hx hdue
      rcases List.mem_append.1 (h.taken x hx) with hx | hx
      · have hordered := a.ordered
        rw [hentries, List.pairwise_cons] at hordered
        rcases hordered.1 x hx with hlt | ⟨-, hlt⟩
        · exact absurd (hdue ▸ hlt) (UInt64.lt_irrefl _)
        · exact hlt
      · refine Nat.lt_of_lt_of_le (a.numbered e (hentries ▸ List.mem_cons_self)) ?_
        exact hnext ▸ nextId_le_of_scheduledIn h hx
    constructor
    · rw [hscheduled', ← hnext]
      exact h.numbered
    · rw [hscheduled', hcancelled, htaken, hentries]
      exact h.once.cons e.id
    · rw [hscheduled', htaken, hentries]
      exact List.forall_mem_cons.2
        ⟨List.mem_cons_self, fun x hx => List.mem_cons_of_mem e (h.taken x hx)⟩
    · rw [hscheduled', hentries]
      exact fun x hx => List.mem_cons_of_mem e (h.left x hx)
    · rw [htaken]
      exact List.pairwise_cons.2 ⟨hmem, h.inOrder⟩

/-- Every entry is taken once, or cancelled, or still pending after queries in a row. -/
theorem accounted (hdistinct : (a.entries.map (·.id)).Nodup) (qs : List (Query α)) :
    a.Accounted (transcript answer a qs) (after answer a qs).entries := by
  induction qs generalizing a with
  | nil =>
    constructor
    · rfl
    · simp [after, transcript, takenIn, cancelledIn, scheduledIn]
    · simp [transcript, takenIn]
    · exact fun e he => List.mem_append_left _ he
    · simp [transcript, takenIn]
  | cons q qs ih =>
    exact (ih ((step_answer a q).distinct hdistinct)).cons (step_answer a q) hdistinct

end Agenda

end KeyReserve
