import KeyReserve.Node.Timers

/-!
# The clock of a node

A node notes the number of each timer that it sets, so that it can take the timer back: one for
the tick, one for the next round of each session, one for each packet that waits. Its clock is its
agenda with these notes. Every step sets timers, takes them back with their notes, or lets the
notes of packets lapse, and of each of these it is told here what it does to a clock in order.

## Main definitions

* `Clock`, `Node.clock`: the agenda, and what is noted of it;
* `Clock.Armed`, `Clock.Disarmed`, `Clock.Lapsed`: the changes of a clock;
* `Clock.forget`: the note of a packet is dropped;
* `Clock.Steps`: timers of a kind are set and taken back, in any order;
* `Clock.Kept`: each timer that is noted is pending, and the pending ones of a kind are noted.

## Main results

* `Clock.Kept.armed`, `Clock.Kept.disarmed`, `Clock.Kept.lapsed`: the changes keep a clock in order;
* `Clock.Steps.mem_iff`, `Clock.Steps.noted_eq`: steps leave timers of other kinds alone.
-/

namespace KeyReserve

namespace Agenda

variable {α : Type}

theorem nodup_entries (a : Agenda α) : a.entries.Nodup := by
  refine a.ordered.imp ?_
  rintro x _ hbefore rfl
  rcases hbefore with hlt | ⟨-, hlt⟩
  · exact UInt64.lt_irrefl _ hlt
  · exact Nat.lt_irrefl _ hlt

theorem pop_eq_some {a a' : Agenda α} {e : Entry α} (h : a.pop = some (e, a')) :
    a.entries = e :: a'.entries := by
  unfold pop at h
  split at h
  · cases h
  · rename_i heq
    cases h
    exact heq

theorem popDue_eq_some {a a' : Agenda α} {e : Entry α} {now : Millis}
    (h : a.popDue now = some (e, a')) : a.pop = some (e, a') ∧ e.due ≤ now := by
  unfold popDue nextTime? at h
  cases hentries : a.entries with
  | nil => simp [hentries] at h
  | cons x xs =>
    simp only [hentries, List.head?_cons, Option.map_some] at h
    split at h
    · rename_i hdue
      have hfirst := pop_eq_some h
      rw [hentries, List.cons.injEq] at hfirst
      exact ⟨h, hfirst.1 ▸ hdue⟩
    · cases h

theorem nextId_pop {a a' : Agenda α} {e : Entry α} (h : a.pop = some (e, a')) :
    a'.nextId = a.nextId := by
  unfold pop at h
  split at h
  · cases h
  · cases h
    rfl

/-- What is left of an agenda without its next entry, where no number occurs twice. -/
theorem mem_pop {a a' : Agenda α} {e : Entry α} (h : a.pop = some (e, a'))
    (hd : ∀ x ∈ a.entries, ∀ y ∈ a.entries, x.id = y.id → x = y) (x : Entry α) :
    x ∈ a'.entries ↔ x ∈ a.entries ∧ x.id ≠ e.id := by
  have heq := pop_eq_some h
  have hmem : ∀ y, y ∈ a.entries ↔ y = e ∨ y ∈ a'.entries := fun y => by
    rw [heq, List.mem_cons]
  constructor
  · intro hx
    refine ⟨(hmem x).2 (.inr hx), fun hid => ?_⟩
    have hsame := hd x ((hmem x).2 (.inr hx)) e ((hmem e).2 (.inl rfl)) hid
    have hordered := a.ordered
    rw [heq, List.pairwise_cons] at hordered
    rcases hordered.1 e (hsame ▸ hx) with hlt | ⟨-, hlt⟩
    · exact UInt64.lt_irrefl _ hlt
    · exact Nat.lt_irrefl _ hlt
  · rintro ⟨hx, hne⟩
    rcases (hmem x).1 hx with rfl | hx
    · exact absurd rfl hne
    · exact hx

end Agenda

/-- The timer ends the wait of a packet. -/
def Timer.EndsWait : Timer → Prop
  | .deadline _ _ => True
  | _ => False

/-- The timer asks for the next round of a session. -/
def Timer.AsksRound : Timer → Prop
  | .chargingRound _ => True
  | _ => False

/-- The timer is one of a link: that of its session, or one of a packet on it. -/
def Timer.HangsOn (link : LinkKey) (t : Timer) : Prop :=
  t = .chargingRound link ∨ ∃ packet, t = .deadline link packet

/-- The timers on an agenda, and the numbers that are noted of them. -/
structure Clock where
  phase : Phase
  agenda : Agenda Timer
  /-- The number under which a timer is noted, if it is. -/
  noted : Timer → Option TimerId

/-- The timer of the next round of the session on a link, while one is noted. -/
def Charger.followUp? (c : Charger) (link : LinkKey) : Option TimerId :=
  (c.session? link).bind (·.followUp)

namespace Node

/-- The number that the node has noted of a timer. -/
def noted (n : Node) : Timer → Option TimerId
  | .tick => n.tickTimer
  | .chargingRound link => n.charger.followUp? link
  | .deadline link packet =>
    (n.deadlines.find? packet).bind fun d => if d.link = link then some d.timer else none

def clock (n : Node) : Clock := ⟨n.phase, n.agenda, n.noted⟩

theorem noted_deadline_eq_some {n : Node} {link : LinkKey} {packet : PacketId} {id : TimerId} :
    n.noted (.deadline link packet) = some id ↔ n.deadlines.find? packet = some ⟨link, id⟩ := by
  show (n.deadlines.find? packet).bind _ = some id ↔ _
  cases n.deadlines.find? packet with
  | none => simp
  | some d =>
    obtain ⟨l, t⟩ := d
    by_cases h : l = link <;> simp [h]

end Node

namespace Clock

/-- Takes a timer off the agenda, if there is one. -/
def cancel (c : Clock) (id : Option TimerId) : Clock :=
  { c with agenda := id.elim c.agenda c.agenda.cancel }

theorem mem_cancel {c : Clock} {id : Option TimerId} {e : Agenda.Entry Timer} :
    e ∈ (c.cancel id).agenda.entries ↔ e ∈ c.agenda.entries ∧ id ≠ some e.id := by
  cases id with
  | none => simp [cancel]
  | some t =>
    show e ∈ (c.agenda.cancel t).entries ↔ _
    rw [Agenda.mem_cancel, ne_eq, ne_eq, Option.some.injEq, eq_comm]

/-- The next number to be given out is as it was. -/
theorem nextId_cancel (c : Clock) (id : Option TimerId) :
    (c.cancel id).agenda.nextId = c.agenda.nextId := by
  cases id <;> rfl

/-! ## Changes -/

/-- A timer is set and noted. The one noted before, if any, is taken back. -/
structure Armed (t : Timer) (due : Millis) (c c' : Clock) : Prop where
  phase : c'.phase = c.phase
  count : c'.agenda.nextId = c.agenda.nextId + 1
  entries : ∀ e, e ∈ c'.agenda.entries ↔
    e = ⟨due, ⟨c.agenda.nextId⟩, t⟩ ∨ e ∈ c.agenda.entries ∧ c.noted t ≠ some e.id
  noted : c'.noted t = some ⟨c.agenda.nextId⟩
  others : ∀ x, x ≠ t → c'.noted x = c.noted x

/-- Some timers are taken back, with their notes. -/
structure Disarmed (S : Timer → Prop) (c c' : Clock) : Prop where
  phase : c'.phase = c.phase
  count : c'.agenda.nextId = c.agenda.nextId
  entries : ∀ e, e ∈ c'.agenda.entries ↔
    e ∈ c.agenda.entries ∧ ∀ t, S t → c.noted t ≠ some e.id
  noted : ∀ t, S t → c'.noted t = none
  others : ∀ t, ¬ S t → c'.noted t = c.noted t

/-- Notes of waiting packets are dropped, and so may be timers that are not noted. -/
structure Lapsed (c c' : Clock) : Prop where
  phase : c'.phase = c.phase
  entries : ∀ e ∈ c'.agenda.entries, e ∈ c.agenda.entries
  kept : ∀ e ∈ c.agenda.entries, c'.noted e.event = some e.id → e ∈ c'.agenda.entries
  noted : ∀ t id, c'.noted t = some id → c.noted t = some id
  others : ∀ t, ¬ t.EndsWait → c'.noted t = c.noted t

/-- The clock once the note of a packet is dropped. -/
def forget (c : Clock) (packet : PacketId) : Clock :=
  { c with
    noted := fun
      | .deadline link q => if q = packet then none else c.noted (.deadline link q)
      | t => c.noted t }

theorem noted_forget_self (c : Clock) (link : LinkKey) (packet : PacketId) :
    (c.forget packet).noted (.deadline link packet) = none :=
  if_pos rfl

theorem noted_forget_of_ne (c : Clock) {packet q : PacketId} (h : q ≠ packet) (link : LinkKey) :
    (c.forget packet).noted (.deadline link q) = c.noted (.deadline link q) :=
  if_neg h

theorem noted_forget_of_not (c : Clock) (packet : PacketId) {t : Timer} (h : ¬ t.EndsWait) :
    (c.forget packet).noted t = c.noted t := by
  cases t with
  | chargingRound link => rfl
  | deadline link q => exact absurd trivial h
  | tick => rfl

theorem noted_of_noted_forget {c : Clock} {packet : PacketId} {t : Timer} {id : TimerId}
    (h : (c.forget packet).noted t = some id) : c.noted t = some id := by
  cases t with
  | chargingRound link => exact h
  | deadline link q =>
    by_cases hq : q = packet
    · cases (if_pos hq).symm.trans h
    · exact (if_neg hq).symm.trans h
  | tick => exact h

/-- A packet of which nothing is noted has nothing to be dropped. -/
theorem forget_eq_self {c : Clock} {packet : PacketId}
    (h : ∀ link, c.noted (.deadline link packet) = none) : c.forget packet = c := by
  have hnoted : (c.forget packet).noted = c.noted := by
    funext t
    cases t with
    | chargingRound link => rfl
    | deadline link q =>
      by_cases hq : q = packet
      · rw [hq, noted_forget_self, h]
      · exact c.noted_forget_of_ne hq link
    | tick => rfl
  show { c with noted := (c.forget packet).noted } = c
  rw [hnoted]

/-- The note of a packet may be dropped while its timer is pending. -/
theorem lapsed_forget (c : Clock) (packet : PacketId) : Lapsed c (c.forget packet) where
  phase := rfl
  entries _ he := he
  kept _ he _ := he
  noted _ _ := noted_of_noted_forget
  others _ := c.noted_forget_of_not packet

/-- The note of a packet is dropped when a timer of the packet fires, be it that timer or not. -/
theorem lapsed_fired {c : Clock} {e : Agenda.Entry Timer} {a : Agenda Timer}
    (hpop : c.agenda.pop = some (e, a)) {link : LinkKey} {packet : PacketId}
    (he : e.event = .deadline link packet) : Lapsed c ({ c with agenda := a }.forget packet) where
  phase := rfl
  entries x hx := Agenda.pop_eq_some hpop ▸ List.mem_cons_of_mem e hx
  kept x hx hnoted := by
    rw [Agenda.pop_eq_some hpop] at hx
    rcases List.mem_cons.1 hx with rfl | hx
    · rw [he, noted_forget_self] at hnoted
      cases hnoted
    · exact hx
  noted _ _ := noted_of_noted_forget
  others _ := noted_forget_of_not { c with agenda := a } packet

/-- A timer is taken off the agenda with its note, if it is noted. -/
theorem Disarmed.of_cancel {S : Timer → Prop} {c d : Clock} {id : Option TimerId}
    (hphase : d.phase = c.phase) (hagenda : d.agenda = c.agenda)
    (hid : ∀ i, id = some i ↔ ∃ t, S t ∧ c.noted t = some i) (hnoted : ∀ t, S t → d.noted t = none)
    (hothers : ∀ t, ¬ S t → d.noted t = c.noted t) : Disarmed S c (d.cancel id) where
  phase := hphase
  count := by rw [nextId_cancel, hagenda]
  entries e := by
    rw [mem_cancel, hagenda, ne_eq, hid, not_exists]
    refine and_congr_right fun _ => forall_congr' fun t => ?_
    rw [not_and]
  noted := hnoted
  others := hothers

theorem Disarmed.refl (c : Clock) : Disarmed (fun _ => False) c c where
  phase := rfl
  count := rfl
  entries _ := ⟨fun he => ⟨he, fun _ => False.elim⟩, And.left⟩
  noted _ := False.elim
  others _ _ := rfl

theorem Disarmed.trans {S T : Timer → Prop} {c d e : Clock} (h : Disarmed S c d)
    (h' : Disarmed T d e) : Disarmed (fun t => S t ∨ T t) c e where
  phase := h'.phase.trans h.phase
  count := h'.count.trans h.count
  entries x := by
    rw [h'.entries, h.entries, and_assoc]
    refine and_congr_right fun _ => ⟨?_, fun hx => ⟨fun t ht => hx t (.inl ht), ?_⟩⟩
    · rintro ⟨hS, hT⟩ t ht
      by_cases hs : S t
      · exact hS t hs
      · exact h.others t hs ▸ hT t (ht.resolve_left hs)
    · intro t ht
      by_cases hs : S t
      · rw [h.noted t hs]
        nofun
      · exact h.others t hs ▸ hx t (.inr ht)
  noted t ht := by
    by_cases hT : T t
    · exact h'.noted t hT
    · exact (h'.others t hT).trans (h.noted t (ht.resolve_right hT))
  others t ht :=
    (h'.others t fun hT => ht (.inr hT)).trans (h.others t fun hS => ht (.inl hS))

theorem Disarmed.congr {S T : Timer → Prop} {c d : Clock} (h : Disarmed S c d)
    (hST : ∀ t, S t ↔ T t) : Disarmed T c d := by
  obtain rfl : S = T := funext fun t => propext (hST t)
  exact h

/-- Timers of a kind are set and taken back, in any order. -/
inductive Steps (P : Timer → Prop) : Clock → Clock → Prop
  | refl (c : Clock) : Steps P c c
  | arm {c d e : Clock} {t : Timer} {due : Millis} (hs : Steps P c d) (ht : P t)
      (h : Armed t due d e) : Steps P c e
  | disarm {c d e : Clock} {S : Timer → Prop} (hs : Steps P c d) (hS : ∀ t, S t → P t)
      (h : Disarmed S d e) : Steps P c e

/-! ## Clocks in order -/

/-- Each timer that is noted is pending, and each pending one of a kind is noted. -/
structure Kept (Q : Timer → Prop) (c : Clock) : Prop where
  distinct : ∀ x ∈ c.agenda.entries, ∀ y ∈ c.agenda.entries, x.id = y.id → x = y
  pending : ∀ t id, c.noted t = some id → ∃ due, ⟨due, id, t⟩ ∈ c.agenda.entries
  owned : ∀ e ∈ c.agenda.entries, Q e.event → c.noted e.event = some e.id

variable {P Q : Timer → Prop} {c d c' : Clock}

/-- A pending timer is noted as the timer that it is. -/
theorem Kept.event_eq (h : c.Kept Q) {e : Agenda.Entry Timer} (he : e ∈ c.agenda.entries)
    {t : Timer} (ht : c.noted t = some e.id) : e.event = t := by
  obtain ⟨due, hmem⟩ := h.pending t e.id ht
  rw [h.distinct e he _ hmem rfl]

theorem Kept.armed (h : c.Kept Q) {t : Timer} {due : Millis} (hs : Armed t due c c') :
    c'.Kept Q := by
  have hfresh : ∀ e ∈ c.agenda.entries, e.id ≠ ⟨c.agenda.nextId⟩ := by
    intro e he hid
    have hlt := c.agenda.numbered e he
    rw [hid] at hlt
    exact Nat.lt_irrefl _ hlt
  refine ⟨?_, ?_, ?_⟩
  · intro x hx y hy hid
    rcases (hs.entries x).1 hx with rfl | ⟨hx, -⟩ <;> rcases (hs.entries y).1 hy with rfl | ⟨hy, -⟩
    · rfl
    · exact absurd hid.symm (hfresh y hy)
    · exact absurd hid (hfresh x hx)
    · exact h.distinct x hx y hy hid
  · intro x id hx
    by_cases hxt : x = t
    · rw [hxt, hs.noted] at hx
      cases hx
      exact ⟨due, (hs.entries _).2 (.inl (hxt ▸ rfl))⟩
    · rw [hs.others x hxt] at hx
      obtain ⟨d, hd⟩ := h.pending x id hx
      exact ⟨d, (hs.entries _).2 (.inr ⟨hd, fun hold => hxt (h.event_eq hd hold)⟩)⟩
  · intro e he hq
    rcases (hs.entries e).1 he with rfl | ⟨he, hne⟩
    · exact hs.noted
    · have hown := h.owned e he hq
      rw [hs.others _ fun ht => hne (ht ▸ hown)]
      exact hown

theorem Kept.disarmed (h : c.Kept Q) {S : Timer → Prop} (hs : Disarmed S c c') : c'.Kept Q := by
  refine ⟨?_, ?_, ?_⟩
  · intro x hx y hy
    exact h.distinct x ((hs.entries x).1 hx).1 y ((hs.entries y).1 hy).1
  · intro t id ht
    by_cases hS : S t
    · rw [hs.noted t hS] at ht
      cases ht
    · rw [hs.others t hS] at ht
      obtain ⟨due, hd⟩ := h.pending t id ht
      refine ⟨due, (hs.entries _).2 ⟨hd, fun s hs' hold => ?_⟩⟩
      obtain rfl : t = s := h.event_eq hd hold
      exact hS hs'
  · intro e he hq
    obtain ⟨he, hne⟩ := (hs.entries e).1 he
    have hown := h.owned e he hq
    rw [hs.others _ fun hS => hne _ hS hown]
    exact hown

/-- Of the timers of which those noted are taken back, the ones that are not noted stay. -/
theorem Kept.mem_disarmed (h : c.Kept Q) {S : Timer → Prop} (hs : Disarmed S c c')
    {e : Agenda.Entry Timer} (hS : c.noted e.event = some e.id → S e.event) :
    e ∈ c'.agenda.entries ↔ e ∈ c.agenda.entries ∧ c.noted e.event ≠ some e.id := by
  rw [hs.entries]
  refine and_congr_right fun he => ⟨fun hnone hid => hnone _ (hS hid) hid, ?_⟩
  rintro hne t - hid
  exact hne (h.event_eq he hid ▸ hid)

theorem Kept.lapsed (h : c.Kept Q) (hQ : ∀ t, Q t → ¬ t.EndsWait) (hs : Lapsed c c') :
    c'.Kept Q := by
  refine ⟨?_, ?_, ?_⟩
  · intro x hx y hy
    exact h.distinct x (hs.entries x hx) y (hs.entries y hy)
  · intro t id ht
    obtain ⟨due, hd⟩ := h.pending t id (hs.noted t id ht)
    exact ⟨due, hs.kept _ hd ht⟩
  · intro e he hq
    rw [hs.others _ (hQ _ hq)]
    exact h.owned e (hs.entries e he) hq

/-- A timer that has fired is pending no longer, and its note is dropped. -/
theorem Kept.fired (h : c.Kept Q) {e : Agenda.Entry Timer} {a : Agenda Timer}
    (hpop : c.agenda.pop = some (e, a)) (hown : c.noted e.event = some e.id)
    (hphase : d.phase = c.phase) (hagenda : d.agenda = a) (hnone : d.noted e.event = none)
    (hothers : ∀ t, t ≠ e.event → d.noted t = c.noted t) : Disarmed (· = e.event) c d := by
  refine ⟨hphase, hagenda ▸ Agenda.nextId_pop hpop, ?_, ?_, hothers⟩
  · intro x
    rw [hagenda, Agenda.mem_pop hpop h.distinct]
    refine and_congr_right fun _ => ?_
    constructor
    · rintro hne t rfl hx
      exact hne (Option.some.inj (hx.symm.trans hown))
    · intro h hid
      exact h _ rfl (hid ▸ hown)
  · rintro t rfl
    exact hnone

/-! ## Steps -/

namespace Steps

theorem trans {e : Clock} (h : Steps P c d) (h' : Steps P d e) : Steps P c e := by
  induction h' with
  | refl => exact h
  | arm _ ht harm ih => exact .arm ih ht harm
  | disarm _ hS hdisarm ih => exact .disarm ih hS hdisarm

theorem mono (h : Steps P c d) (hPQ : ∀ t, P t → Q t) : Steps Q c d := by
  induction h with
  | refl => exact .refl _
  | arm _ ht harm ih => exact .arm ih (hPQ _ ht) harm
  | disarm _ hS hdisarm ih => exact .disarm ih (fun t ht => hPQ t (hS t ht)) hdisarm

theorem of_eq (h : d = c) : Steps P c d := h.symm ▸ .refl c

theorem phase_eq (h : Steps P c d) : d.phase = c.phase := by
  induction h with
  | refl => rfl
  | arm _ _ harm ih => exact harm.phase.trans ih
  | disarm _ _ hdisarm ih => exact hdisarm.phase.trans ih

theorem kept (h : Steps P c d) (hk : c.Kept Q) : d.Kept Q := by
  induction h with
  | refl => exact hk
  | arm _ _ harm ih => exact ih.armed harm
  | disarm _ _ hdisarm ih => exact ih.disarmed hdisarm

/-- Timers of other kinds stay noted as they are. -/
theorem noted_eq (h : Steps P c d) {t : Timer} (ht : ¬ P t) : d.noted t = c.noted t := by
  induction h with
  | refl => rfl
  | arm _ hP harm ih => exact (harm.others t fun heq => ht (heq ▸ hP)).trans ih
  | disarm _ hS hdisarm ih => exact (hdisarm.others t fun hs => ht (hS t hs)).trans ih

/-- Timers of other kinds stay pending. -/
theorem mem_iff (h : Steps P c d) (hk : c.Kept Q) {e : Agenda.Entry Timer} (he : ¬ P e.event) :
    e ∈ d.agenda.entries ↔ e ∈ c.agenda.entries := by
  induction h with
  | refl => exact Iff.rfl
  | @arm d _ t _ hs hP harm ih =>
    rw [harm.entries, ← ih]
    constructor
    · rintro (rfl | ⟨hmem, -⟩)
      · exact absurd hP he
      · exact hmem
    · intro hmem
      exact .inr ⟨hmem, fun hold => he ((hs.kept hk).event_eq hmem hold ▸ hP)⟩
  | @disarm d _ S hs hS hdisarm ih =>
    rw [hdisarm.entries, ← ih]
    refine ⟨And.left, fun hmem => ⟨hmem, ?_⟩⟩
    intro t ht hold
    exact he ((hs.kept hk).event_eq hmem hold ▸ hS t ht)

end Steps

end Clock

end KeyReserve
