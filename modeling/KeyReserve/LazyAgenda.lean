import KeyReserve.Agenda

/-!
# Agendas that cancel lazily

A lazy agenda keeps a line of places in the order in which their events are to happen, and the
pending events apart from it. To cancel an event is to take it out and leave its place in the line:
when the place comes up, it is passed over.

## Main definitions

* `LazyAgenda`, `LazyAgenda.schedule`, `LazyAgenda.cancel`, `LazyAgenda.nextTime?`,
  `LazyAgenda.pop`, `LazyAgenda.popDue`.

## Main results

* `LazyAgenda.contains_of_mem_head?_skip`: the place at the front is that of a pending event once
  the others have been passed over.
-/

namespace KeyReserve

/-- What is to happen at which time, with the places of cancelled events among those of pending
ones. -/
structure LazyAgenda (α : Type) where
  /-- The places in line, the next one first. -/
  slots : List (Agenda.Entry Unit)
  /-- The pending events. -/
  events : Table TimerId α
  /-- The number of the next event to be scheduled. -/
  nextId : Nat
  ordered : slots.Pairwise Agenda.Entry.Before
  distinct : slots.Pairwise (·.id ≠ ·.id)
  numbered : ∀ s ∈ slots, s.id.val < nextId
  /-- Every pending event has a place in line. -/
  placed : ∀ id, events.contains id → ∃ s ∈ slots, s.id = id

namespace LazyAgenda

variable {α : Type}

/-- The agenda of which nothing has been asked. -/
def empty : LazyAgenda α :=
  ⟨[], .empty, 0, .nil, .nil, by simp, by simp [Table.contains, Table.find?_empty]⟩

instance : Inhabited (LazyAgenda α) := ⟨empty⟩

/-- The number of pending events. -/
def size (a : LazyAgenda α) : Nat := a.events.size

def isEmpty (a : LazyAgenda α) : Bool := a.events.isEmpty

/-- Whether the event of a number is still to come. -/
def isPending (a : LazyAgenda α) (id : TimerId) : Bool := a.events.contains id

/-- What is to happen in a place, unless it was cancelled. -/
def eventAt? (a : LazyAgenda α) (s : Agenda.Entry Unit) : Option (Agenda.Entry α) :=
  (a.events.find? s.id).map fun event => ⟨s.due, s.id, event⟩

/-- Adds an event; its number is the count of events ever scheduled before. -/
def schedule (a : LazyAgenda α) (due : Millis) (event : α) : TimerId × LazyAgenda α :=
  let s : Agenda.Entry Unit := ⟨due, ⟨a.nextId⟩, ()⟩
  (s.id,
    { slots := Agenda.place s a.slots
      events := a.events.insert s.id event
      nextId := a.nextId + 1
      ordered := Agenda.pairwise_place a.ordered a.numbered
      distinct := by
        have hperm : (Agenda.place s a.slots).Perm (s :: a.slots) := Agenda.place_perm s a.slots
        refine (hperm.pairwise_iff Ne.symm).2 (List.pairwise_cons.2 ⟨?_, a.distinct⟩)
        intro x hx heq
        exact Nat.ne_of_lt (a.numbered x hx) (congrArg TimerId.val heq.symm)
      numbered := fun x hx => by
        rcases Agenda.mem_place.1 hx with rfl | hx
        · exact Nat.lt_succ_self _
        · exact Nat.lt_succ_of_lt (a.numbered x hx)
      placed := fun id h => by
        rw [Table.contains, Table.find?_insert] at h
        split at h
        · rename_i heq
          exact ⟨s, Agenda.mem_place.2 (.inl rfl), heq.symm⟩
        · obtain ⟨x, hx, hid⟩ := a.placed id h
          exact ⟨x, Agenda.mem_place.2 (.inr hx), hid⟩ })

/-- Takes the event of a number out if it is pending, and says whether it was. Its place stays. -/
def cancel (a : LazyAgenda α) (id : TimerId) : Bool × LazyAgenda α :=
  (a.events.contains id,
    { a with
      events := a.events.erase id
      placed := fun j h => by
        rw [Table.contains, Table.find?_erase] at h
        split at h
        · cases h
        · exact a.placed j h })

/-- The place of a pending event is not passed over. -/
theorem mem_dropWhile {events : Table TimerId α} {slots : List (Agenda.Entry Unit)}
    {s : Agenda.Entry Unit} (hs : s ∈ slots) (h : events.contains s.id = true) :
    s ∈ slots.dropWhile (!events.contains ·.id) := by
  have hsplit : slots.takeWhile (!events.contains ·.id) ++ slots.dropWhile (!events.contains ·.id) =
      slots := List.takeWhile_append_dropWhile
  rw [← hsplit] at hs
  rcases List.mem_append.1 hs with hs | hs
  · have := List.all_eq_true.1 List.all_takeWhile s hs
    simp [h] at this
  · exact hs

/-- Passes over the places at the front whose events were cancelled. -/
def skip (a : LazyAgenda α) : LazyAgenda α :=
  { a with
    slots := a.slots.dropWhile (!a.events.contains ·.id)
    ordered := a.ordered.sublist (List.dropWhile_sublist _)
    distinct := a.distinct.sublist (List.dropWhile_sublist _)
    numbered := fun s hs => a.numbered s ((List.dropWhile_sublist _).subset hs)
    placed := fun id h => by
      obtain ⟨s, hs, rfl⟩ := a.placed id h
      exact ⟨s, mem_dropWhile hs h, rfl⟩ }

/-- Takes the place at the front out, and its event with it. -/
def dropFront (a : LazyAgenda α) : LazyAgenda α :=
  { a with
    slots := a.slots.tail
    events := match a.slots.head? with
      | some s => a.events.erase s.id
      | none => a.events
    ordered := a.ordered.tail
    distinct := a.distinct.tail
    numbered := fun s hs => a.numbered s (List.mem_of_mem_tail hs)
    placed := fun id h => by
      cases hslots : a.slots with
      | nil =>
        rw [hslots] at h
        obtain ⟨s, hs, -⟩ := a.placed id h
        rw [hslots] at hs
        cases hs
      | cons s ss =>
        simp only [hslots, List.head?_cons, Table.contains, Table.find?_erase] at h
        split at h
        · cases h
        · rename_i hne
          obtain ⟨x, hx, rfl⟩ := a.placed id h
          rcases List.mem_cons.1 (hslots ▸ hx) with rfl | hx
          · exact absurd rfl hne
          · exact ⟨x, hx, rfl⟩ }

/-- The time of the next event. -/
def nextTime? (a : LazyAgenda α) : Option Millis × LazyAgenda α :=
  (a.skip.slots.head?.map (·.due), a.skip)

/-- The next event, taken out together with its place. -/
def pop (a : LazyAgenda α) : Option (Agenda.Entry α) × LazyAgenda α :=
  (a.skip.slots.head?.bind a.skip.eventAt?, a.skip.dropFront)

/-- The next event, provided that its time has come. -/
def popDue (a : LazyAgenda α) (now : Millis) : Option (Agenda.Entry α) × LazyAgenda α :=
  match a.nextTime? with
  | (some due, a) => if due ≤ now then a.pop else (none, a)
  | (none, a) => (none, a)

theorem contains_of_mem_head?_skip {a : LazyAgenda α} {s : Agenda.Entry Unit}
    (h : a.skip.slots.head? = some s) : a.events.contains s.id = true := by
  have := List.head?_dropWhile_not (!a.events.contains ·.id) a.slots
  rw [show (a.slots.dropWhile _).head? = some s from h] at this
  simpa using this

end LazyAgenda

end KeyReserve
