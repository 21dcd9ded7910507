import KeyReserve.Proofs.Deadlines
import Mathlib.Algebra.Order.BigOperators.Group.List
import Mathlib.Algebra.Order.Group.Nat
import Mathlib.Data.List.Perm.Subperm

/-!
# Timers that are due

What is due is fired in a loop, and a timer that fires may set another one that is due as well. The
loop ends on every node. A timer sets one other at most when it fires, for a later instant than its
own, so that what is pending lies less far behind the present after each of them. The last instant
that can be told is left out: a tick that fires then is set anew for the same instant.

## Main definitions

* `Agenda.backlog`: how far the entries of an agenda lie behind an instant;
* `Agenda.Renews`: entries have gone, and at most one has come, which is due after an instant.

## Main results

* `Agenda.Renews.backlog_lt`: the backlog shrinks where an entry gives way to a later one;
* `Node.renews_onTimer`: a timer that fires sets one other at most;
* `Node.fireDue_ends`: the loop ends, in the order of the timers, with none of them left.
-/

namespace KeyReserve

namespace Agenda

variable {α : Type} {a a' b : Agenda α} {e : Entry α} {instant now : Millis}

/-- How many instants there are from when an entry is due up to the present one. -/
def Entry.lag (now : Millis) (e : Entry α) : Nat := now.toNat + 1 - e.due.toNat

/-- How far the entries of an agenda lie behind an instant, taken together. -/
def backlog (a : Agenda α) (now : Millis) : Nat := (a.entries.map (Entry.lag now)).sum

/-- Entries have gone, and at most one has come, which is due after an instant. -/
def Renews (instant : Millis) (a b : Agenda α) : Prop :=
  ∃ new : Option (Entry α),
    (∀ e ∈ b.entries, new = some e ∨ e ∈ a.entries) ∧ ∀ e, new = some e → instant < e.due

theorem Renews.of_subset (h : b.entries ⊆ a.entries) : Renews instant a b :=
  ⟨none, fun _ he => .inr (h he), nofun⟩

theorem Renews.of_eq (h : b = a) : Renews instant a b :=
  .of_subset (h ▸ List.Subset.refl _)

theorem Renews.of_superset (h : Renews instant a' b) (hs : a'.entries ⊆ a.entries) :
    Renews instant a b := by
  obtain ⟨new, hmem, hlater⟩ := h
  exact ⟨new, fun e he => (hmem e he).imp_right fun he => hs he, hlater⟩

theorem Renews.of_mem {x : Entry α} (h : ∀ e ∈ b.entries, e = x ∨ e ∈ a.entries)
    (hlater : instant < x.due) : Renews instant a b := by
  refine ⟨some x, fun e he => (h e he).imp_left fun he => congrArg some he.symm, ?_⟩
  rintro e ⟨⟩
  exact hlater

/-- No entry is due before the next one. -/
theorem le_due_of_pop (h : a.pop = some (e, a')) {x : Entry α} (hx : x ∈ a'.entries) :
    e.due ≤ x.due := by
  have hordered := a.ordered
  rw [pop_eq_some h, List.pairwise_cons] at hordered
  rcases hordered.1 x hx with hlt | ⟨heq, -⟩
  · exact UInt64.le_of_lt hlt
  · exact UInt64.le_of_eq heq

theorem Entry.lag_lt {x : Entry α} (h : e.due < x.due) (hdue : e.due ≤ now) :
    x.lag now < e.lag now := by
  rw [UInt64.lt_iff_toNat_lt] at h
  rw [UInt64.le_iff_toNat_le] at hdue
  unfold lag
  omega

/-- Where a due entry is taken out, and at most one is put in that is due after it, the backlog
shrinks. -/
theorem Renews.backlog_lt (h : Renews e.due a' b) (hpop : a.pop = some (e, a'))
    (hdue : e.due ≤ now) : b.backlog now < a.backlog now := by
  obtain ⟨new, hmem, hlater⟩ := h
  have hsubset : b.entries ⊆ new.toList ++ a'.entries := fun x hx => by
    rw [List.mem_append, Option.mem_toList]
    exact hmem x hx
  obtain ⟨kept, hperm, hkept⟩ := b.nodup_entries.subperm hsubset
  have hnew : (new.toList.map (Entry.lag now)).sum < e.lag now := by
    cases hn : new with
    | none =>
      rw [UInt64.le_iff_toNat_le] at hdue
      simp only [Option.toList_none, List.map_nil, List.sum_nil, Entry.lag]
      omega
    | some x => simpa using Entry.lag_lt (hlater x hn) hdue
  calc b.backlog now
      = (kept.map (Entry.lag now)).sum := (hperm.map _).sum_nat.symm
    _ ≤ ((new.toList ++ a'.entries).map (Entry.lag now)).sum :=
        (hkept.map _).sum_le_sum fun _ _ => Nat.zero_le _
    _ = (new.toList.map (Entry.lag now)).sum + a'.backlog now := by
        rw [List.map_append, List.sum_append]
        rfl
    _ < e.lag now + a'.backlog now := Nat.add_lt_add_right hnew _
    _ = a.backlog now := by rw [backlog, backlog, pop_eq_some hpop, List.map_cons, List.sum_cons]

end Agenda

namespace Node

open Agenda (Renews)

variable (n : Node)

/-! ## What takes timers back only -/

theorem subset_abandonCharging (link : LinkKey) (reason : String) :
    (n.abandonCharging link reason).2.agenda.entries ⊆ n.agenda.entries :=
  fun e he => (((n.disarmed_abandonCharging link reason).entries e).1 he).1

theorem subset_requestCharge (link : LinkKey) (bytes : Bytes) (now : Millis) :
    (n.requestCharge link bytes now).agenda.entries ⊆ n.agenda.entries := by
  unfold requestCharge
  have hsubmit : (n.submit (.charge link bytes now)).2.agenda = n.agenda := rfl
  split <;> rename_i h <;> rw [h] at hsubmit
  · exact hsubmit ▸ List.Subset.refl _
  · exact hsubmit ▸ subset_abandonCharging _ link _

theorem subset_chargeIfLow (link : LinkKey) (now : Millis) :
    (n.chargeIfLow link now).agenda.entries ⊆ n.agenda.entries := by
  unfold chargeIfLow
  split
  · exact List.Subset.refl _
  · split
    · exact List.Subset.refl _
    · exact subset_requestCharge _ link _ now

theorem subset_chargingRound (link : LinkKey) (now : Millis) :
    (n.chargingRound link now).agenda.entries ⊆ n.agenda.entries := by
  unfold chargingRound
  simp only
  split
  · exact List.Subset.refl _
  · exact subset_requestCharge _ link _ now

theorem subset_tick (now : Millis) : (n.tick now).agenda.entries ⊆ n.agenda.entries := by
  show (n.links.keys.foldl (fun n key => n.chargeIfLow key now) n).agenda.entries ⊆ _
  exact List.foldlRecOn (motive := fun m : Node => m.agenda.entries ⊆ n.agenda.entries)
    n.links.keys _ (List.Subset.refl _)
    fun m hm key _ => List.Subset.trans (m.subset_chargeIfLow key now) hm

/-! ## What a timer sets when it fires -/

theorem renews_scheduleTick {now : Millis} (h : now < 0xFFFFFFFFFFFFFFFF) :
    Renews now n.agenda (n.scheduleTick now).agenda := by
  unfold scheduleTick
  simp only
  split
  · rename_i hset
    rw [Bool.and_eq_true, decide_eq_true_iff] at hset
    refine .of_mem (fun e he => Agenda.mem_schedule.1 he) ?_
    have hpos := UInt64.lt_iff_toNat_lt.1 hset.1
    have hlast := UInt64.lt_iff_toNat_lt.1 h
    have hsize : UInt64.size - 1 = (0xFFFFFFFFFFFFFFFF : UInt64).toNat := rfl
    rw [UInt64.toNat_zero] at hpos
    rw [UInt64.lt_iff_toNat_lt, UInt64.toNat_addSat, hsize]
    omega
  · exact .of_eq rfl

theorem renews_expireWaiting (link : LinkKey) (packet : PacketId) (now : Millis) :
    Renews now n.agenda (n.expireWaiting link packet now).agenda := by
  rcases n.expireWaiting_cases link packet now with hsame | hforgot | ⟨p, due, hlt, harm⟩
  · exact .of_eq (congrArg Clock.agenda hsame)
  · exact .of_eq (congrArg Clock.agenda hforgot)
  · exact .of_mem (fun e he => ((harm.entries e).1 he).imp_right And.left) hlt

theorem renews_onTimer (timer : Timer) {now : Millis} (h : now < 0xFFFFFFFFFFFFFFFF) :
    Renews now n.agenda (n.onTimer timer now).agenda := by
  cases timer with
  | chargingRound link => exact .of_subset (n.subset_chargingRound link now)
  | deadline link packet => exact n.renews_expireWaiting link packet now
  | tick =>
    unfold onTimer
    simp only
    split
    · exact (renews_scheduleTick _ h).of_superset (subset_tick { n with tickTimer := none } now)
    · exact .of_eq rfl

/-! ## The loop -/

variable {n} {m : Node} {e : Agenda.Entry Timer} {now : Millis}

/-- A timer that is due fires, and leaves those behind it with at most one that is later. -/
theorem exists_fired (hm : n.fireNext now = some (e, m)) (h : now < 0xFFFFFFFFFFFFFFFF) :
    ∃ a, n.agenda.pop = some (e, a) ∧ e.due ≤ now ∧ Renews e.due a m.agenda := by
  obtain ⟨a, hpop, hdue, rfl⟩ := fireNext_eq_some hm
  exact ⟨a, hpop, hdue, renews_onTimer { n with agenda := a } _ (UInt64.lt_of_le_of_lt hdue h)⟩

theorem backlog_fireNext (hm : n.fireNext now = some (e, m)) (h : now < 0xFFFFFFFFFFFFFFFF) :
    m.agenda.backlog now < n.agenda.backlog now := by
  obtain ⟨a, hpop, hdue, hrenews⟩ := exists_fired hm h
  exact hrenews.backlog_lt hpop hdue

/-- What is pending after a timer has fired is due no earlier than that one was. -/
theorem le_due_fireNext (hm : n.fireNext now = some (e, m)) (h : now < 0xFFFFFFFFFFFFFFFF) :
    ∀ x ∈ m.agenda.entries, e.due ≤ x.due := by
  obtain ⟨a, hpop, -, new, hmem, hlater⟩ := exists_fired hm h
  intro x hx
  rcases hmem x hx with hnew | hold
  · exact UInt64.le_of_lt (hlater x hnew)
  · exact Agenda.le_due_of_pop hpop hold

theorem due_mem_fireNext (hm : n.fireNext now = some (e, m)) (h : now < 0xFFFFFFFFFFFFFFFF) :
    e ∈ n.agenda.entries ∧ e.due ≤ now := by
  obtain ⟨a, hpop, hdue, -⟩ := exists_fired hm h
  exact ⟨Agenda.pop_eq_some hpop ▸ List.mem_cons_self, hdue⟩

/-- Nothing is fired that is due before all that is pending. -/
theorem le_due_fireDue (h : now < 0xFFFFFFFFFFFFFFFF) (limit : Nat) (floor : Millis)
    (hfloor : ∀ x ∈ n.agenda.entries, floor ≤ x.due) :
    ∀ x ∈ (n.fireDue now limit).1, floor ≤ x.due ∧ x.due ≤ now := by
  induction limit generalizing n with
  | zero => exact fun x hx => absurd hx List.not_mem_nil
  | succ limit ih =>
    unfold fireDue
    split
    · exact fun x hx => absurd hx List.not_mem_nil
    · rename_i e m hm
      obtain ⟨he, hdue⟩ := due_mem_fireNext hm h
      intro x hx
      rcases List.mem_cons.1 hx with rfl | hx
      · exact ⟨hfloor _ he, hdue⟩
      · exact ih (fun y hy => UInt64.le_trans (hfloor e he) (le_due_fireNext hm h y hy)) x hx

/-- Timers fire in the order of their times. -/
theorem pairwise_fireDue (h : now < 0xFFFFFFFFFFFFFFFF) (limit : Nat) :
    (n.fireDue now limit).1.Pairwise (fun x y => x.due ≤ y.due) := by
  induction limit generalizing n with
  | zero => exact .nil
  | succ limit ih =>
    unfold fireDue
    split
    · exact .nil
    · rename_i e m hm
      exact .cons (fun x hx => (le_due_fireDue h limit e.due (le_due_fireNext hm h) x hx).1) ih

/-- The loop ends, after no more timers than there is backlog. -/
theorem exists_fireDue (n : Node) (h : now < 0xFFFFFFFFFFFFFFFF) :
    ∃ fired m, fired.length ≤ n.agenda.backlog now ∧
      (∀ limit, fired.length ≤ limit → n.fireDue now limit = (fired, m)) ∧
      m.fireNext now = none := by
  induction hb : n.agenda.backlog now using Nat.strong_induction_on generalizing n with
  | _ b ih =>
    cases hm : n.fireNext now with
    | none =>
      refine ⟨[], n, Nat.zero_le _, fun limit _ => ?_, hm⟩
      cases limit with
      | zero => rfl
      | succ limit => rw [fireDue, hm]
    | some next =>
      obtain ⟨e, m⟩ := next
      have hlt : m.agenda.backlog now < b := hb ▸ backlog_fireNext hm h
      obtain ⟨fired, last, hlength, hfires, hdry⟩ := ih _ hlt m rfl
      refine ⟨e :: fired, last, Nat.lt_of_le_of_lt hlength hlt, fun limit hlimit => ?_, hdry⟩
      obtain ⟨limit, rfl⟩ := Nat.exists_eq_add_of_le' (Nat.le_trans (Nat.succ_pos _) hlimit)
      simp only [fireDue, hm, hfires limit (Nat.le_of_succ_le_succ hlimit)]

/-- What is due is fired to the end, on every node and whatever the transport does: the timers come
in the order of their times, each was due, and none that is due is left. -/
theorem fireDue_ends (n : Node) (h : now < 0xFFFFFFFFFFFFFFFF) :
    ∃ fired m, fired.length ≤ n.agenda.backlog now ∧
      (∀ limit, fired.length ≤ limit → n.fireDue now limit = (fired, m)) ∧
      fired.Pairwise (fun x y => x.due ≤ y.due) ∧ (∀ e ∈ fired, e.due ≤ now) ∧
      m.fireNext now = none ∧ ∀ e ∈ m.agenda.entries, now < e.due := by
  obtain ⟨fired, m, hlength, hfires, hdry⟩ := n.exists_fireDue h
  have hall := hfires fired.length (Nat.le_refl _)
  have hordered := pairwise_fireDue (n := n) h fired.length
  have hdue := le_due_fireDue (n := n) h fired.length 0 fun _ _ => UInt64.zero_le
  rw [hall] at hordered hdue
  exact ⟨fired, m, hlength, hfires, hordered, fun e he => (hdue e he).2, hdry,
    lt_due_of_fireNext hdry⟩

/-- The timers of two packets, of a round and of two ticks fire, where the second tick was not pending
when the first timer fired. -/
theorem fireDue_ends_pair : ∃ n fired m, create .pair .reluctant = .ok n ∧
    (n.drive (Turn.pairRun ⟨8⟩)).agenda.size = 4 ∧ fired.map (·.due) = [151, 181, 200, 1000, 2000] ∧
    (∀ limit, fired.length ≤ limit →
      (n.drive (Turn.pairRun ⟨8⟩)).fireDue 2500 limit = (fired, m)) ∧
    ∀ e ∈ m.agenda.entries, 2500 < e.due := by
  obtain ⟨n, hn, hsize, hbacklog, hdue⟩ : ∃ n, create .pair .reluctant = .ok n ∧
      (n.drive (Turn.pairRun ⟨8⟩)).agenda.size = 4 ∧
      (n.drive (Turn.pairRun ⟨8⟩)).agenda.backlog 2500 = 8472 ∧
      ((n.drive (Turn.pairRun ⟨8⟩)).fireDue 2500 8472).1.map (·.due) =
        [151, 181, 200, 1000, 2000] :=
    ⟨_, rfl, by decide +kernel, by decide +kernel, by decide +kernel⟩
  obtain ⟨fired, m, hlength, hfires, -, -, -, hlater⟩ :=
    fireDue_ends (n.drive (Turn.pairRun ⟨8⟩)) (show (2500 : Millis) < _ by decide)
  rw [hfires 8472 (hbacklog ▸ hlength)] at hdue
  exact ⟨n, fired, m, hn, hsize, hdue, hfires, hlater⟩

end Node

end KeyReserve
