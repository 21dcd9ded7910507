import KeyReserve.Ident

/-!
# The agenda of timers

An agenda holds what is to happen at which time. Entries come out in the order of their times, and
at equal times in the order in which they were put in. An entry can be cancelled until then.

## Main definitions

* `Agenda`, `Agenda.schedule`, `Agenda.cancel`, `Agenda.pop`, `Agenda.popDue`.

## Main results

* `Agenda.mem_schedule`: scheduling adds one entry, with a number never used before.
-/

namespace KeyReserve

/-- Something that is to happen. -/
structure Agenda.Entry (α : Type) where
  due : Millis
  id : TimerId
  event : α
  deriving DecidableEq

/-- Earlier entries come first, and of those due together the one scheduled first. -/
def Agenda.Entry.Before {α : Type} (a b : Agenda.Entry α) : Prop :=
  a.due < b.due ∨ a.due = b.due ∧ a.id.val < b.id.val

/-- What is to happen at which time. -/
structure Agenda (α : Type) where
  /-- The pending entries, the next one first. -/
  entries : List (Agenda.Entry α)
  /-- The number of the next entry to be scheduled. -/
  nextId : Nat
  ordered : entries.Pairwise Agenda.Entry.Before
  numbered : ∀ e ∈ entries, e.id.val < nextId

namespace Agenda

variable {α : Type}

/-- The agenda of which nothing has been asked. -/
def empty : Agenda α := ⟨[], 0, .nil, by simp⟩

instance : Inhabited (Agenda α) := ⟨empty⟩

/-- Places the entry scheduled last among ordered ones. -/
def place (e : Entry α) : List (Entry α) → List (Entry α)
  | [] => [e]
  | x :: xs => if e.due < x.due then e :: x :: xs else x :: place e xs

theorem mem_place {e x : Entry α} {xs : List (Entry α)} : x ∈ place e xs ↔ x = e ∨ x ∈ xs := by
  induction xs with
  | nil => simp [place]
  | cons y ys ih =>
    simp only [place]
    split
    · simp
    · simp only [List.mem_cons, ih]
      exact or_left_comm

theorem place_perm (e : Entry α) (xs : List (Entry α)) : (place e xs).Perm (e :: xs) := by
  induction xs with
  | nil => exact .refl _
  | cons y ys ih =>
    simp only [place]
    split
    · exact .refl _
    · exact (ih.cons y).trans (.swap e y ys)

theorem pairwise_place {e : Entry α} {xs : List (Entry α)} (h : xs.Pairwise Entry.Before)
    (hid : ∀ x ∈ xs, x.id.val < e.id.val) : (place e xs).Pairwise Entry.Before := by
  induction xs with
  | nil => simp [place]
  | cons y ys ih =>
    obtain ⟨hy, hys⟩ := List.pairwise_cons.1 h
    simp only [place]
    split
    · rename_i hlt
      refine List.pairwise_cons.2 ⟨?_, h⟩
      intro x hx
      refine .inl ?_
      rcases List.mem_cons.1 hx with rfl | hx
      · exact hlt
      · rcases hy x hx with h1 | ⟨h1, -⟩
        · exact UInt64.lt_trans hlt h1
        · exact h1 ▸ hlt
    · rename_i hnlt
      refine List.pairwise_cons.2 ⟨?_, ih hys fun x hx => hid x (List.mem_cons_of_mem _ hx)⟩
      intro x hx
      rcases mem_place.1 hx with rfl | hx
      · rcases UInt64.lt_or_eq_of_le (UInt64.not_lt.1 hnlt) with h1 | h1
        · exact .inl h1
        · exact .inr ⟨h1, hid y List.mem_cons_self⟩
      · exact hy x hx

/-- Adds an entry; its number is the count of entries ever scheduled before. -/
def schedule (a : Agenda α) (due : Millis) (event : α) : TimerId × Agenda α :=
  let e : Entry α := ⟨due, ⟨a.nextId⟩, event⟩
  (e.id,
    { entries := place e a.entries
      nextId := a.nextId + 1
      ordered := pairwise_place a.ordered a.numbered
      numbered := fun x hx => by
        rcases mem_place.1 hx with rfl | hx
        · exact Nat.lt_succ_self _
        · exact Nat.lt_succ_of_lt (a.numbered x hx) })

/-- Whether the entry of a number is still to come. -/
def isPending (a : Agenda α) (id : TimerId) : Bool := a.entries.any (·.id = id)

/-- Takes the entry of a number out. -/
def cancel (a : Agenda α) (id : TimerId) : Agenda α :=
  { a with
    entries := a.entries.filter (·.id ≠ id)
    ordered := a.ordered.filter _
    numbered := fun e he => a.numbered e (List.mem_filter.1 he).1 }

/-- The number of pending entries. -/
def size (a : Agenda α) : Nat := a.entries.length

def isEmpty (a : Agenda α) : Bool := a.entries.isEmpty

/-- The time of the next entry. -/
def nextTime? (a : Agenda α) : Option Millis := a.entries.head?.map (·.due)

/-- The next entry, and the agenda without it. -/
def pop (a : Agenda α) : Option (Entry α × Agenda α) :=
  match h : a.entries with
  | [] => none
  | e :: es =>
    some (e, ⟨es, a.nextId, (List.pairwise_cons.1 (h ▸ a.ordered)).2,
      fun x hx => a.numbered x (h ▸ List.mem_cons_of_mem _ hx)⟩)

/-- The next entry, provided that its time has come. -/
def popDue (a : Agenda α) (now : Millis) : Option (Entry α × Agenda α) :=
  match a.nextTime? with
  | some due => if due ≤ now then a.pop else none
  | none => none

theorem mem_schedule {a : Agenda α} {due : Millis} {event : α} {x : Entry α} :
    x ∈ (a.schedule due event).2.entries ↔ x = ⟨due, ⟨a.nextId⟩, event⟩ ∨ x ∈ a.entries :=
  mem_place

theorem mem_cancel {a : Agenda α} {id : TimerId} {x : Entry α} :
    x ∈ (a.cancel id).entries ↔ x ∈ a.entries ∧ x.id ≠ id := by
  simp [cancel]

end Agenda

end KeyReserve
