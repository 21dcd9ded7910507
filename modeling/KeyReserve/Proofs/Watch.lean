import KeyReserve.Proofs.PacketTimers
import Mathlib.Data.List.Nodup
import Mathlib.Logic.Relation

/-!
# Waiting packets and their timers

The timers of a node, its queues and the links that are up are watched together. A single step sets
and takes back timers of rounds and ticks, brings links up or down, or lets packets leave a queue; a
packet joins a queue after such steps at most.

Whatever numbers the packets have, no note is left of the timer of a packet whose link is down. As
long as no two packets that wait share a number, each of them has its timer, and no other timer of a
packet is pending.

## Main definitions

* `Watch`: the timers, the queues and the links that are up;
* `Watch.Step`, `Watch.Joined`, `Watch.Turned`: a single step, a packet that starts to wait, and
  steps after which a packet may start to wait;
* `Watch.Timed`: what holds whatever numbers the packets have;
* `Watch.Watched`: each waiting packet has its timer, and no packet has any other.

## Main results

* `Watch.Timed.of_step`, `Watch.Timed.of_joined`, `Watch.Timed.of_turned`;
* `Watch.Watched.of_step`, `Watch.Watched.of_joined`, `Watch.Watched.of_turned`.
-/

namespace KeyReserve

/-- The timers of a node, what waits on it, and the links that are up. -/
structure Watch where
  clock : Clock
  id : NodeId
  /-- The packets that wait for a next hop. -/
  queue : NodeId → List SecuredPacket
  up : LinkKey → Bool

namespace Watch

open Clock

def withQueue (w : Watch) (hop : NodeId) (ps : List SecuredPacket) : Watch :=
  { w with queue := fun h => if h = hop then ps else w.queue h }

theorem withQueue_withQueue (w : Watch) (hop : NodeId) (ps qs : List SecuredPacket) :
    (w.withQueue hop ps).withQueue hop qs = w.withQueue hop qs := by
  simp only [withQueue, mk.injEq, true_and, and_true]
  funext h
  split <;> rfl

/-- A single step in which no packet joins a queue. -/
inductive Step : Watch → Watch → Prop
  | aside {w : Watch} {c : Clock} {P : Timer → Prop} (hs : Steps P w.clock c)
      (hP : ∀ t, P t → ¬ t.EndsWait)
      (htick : (c.noted .tick).isSome = true →
        (w.clock.noted .tick).isSome = true ∨ w.clock.phase = .running) :
      Step w { w with clock := c }
  | raised {w : Watch} {up : LinkKey → Bool} (hphase : w.clock.phase ≠ .stopped)
      (h : ∀ key, w.up key = true → up key = true) : Step w { w with up := up }
  | started (w : Watch) : Step w { w with clock := { w.clock with phase := .running } }
  | stopped {w : Watch} (htick : w.clock.noted .tick = none) (hdown : ∀ key, w.up key = false) :
      Step w { w with clock := { w.clock with phase := .stopped } }
  | lowered {w : Watch} {c : Clock} {up : LinkKey → Bool} {peer : NodeId}
      (h : Disarmed (Timer.HangsOn (.join w.id peer)) w.clock c)
      (hup : ∀ key, up key = if key = .join w.id peer then false else w.up key) :
      Step w { w.withQueue peer [] with clock := c, up := up }
  | left {w : Watch} {c : Clock} {hop : NodeId} {gone rest : List SecuredPacket}
      (hq : w.queue hop = gone ++ rest)
      (h : Disarmed (fun t => ∃ p ∈ gone, ∃ link, t = .deadline link p.id) w.clock c) :
      Step w { w.withQueue hop rest with clock := c }
  /-- A timer fires for a packet that waits no longer, or of which nothing is noted. -/
  | idle {w : Watch} {e : Agenda.Entry Timer} {a : Agenda Timer} {link : LinkKey}
      {packet : PacketId} (hpop : w.clock.agenda.pop = some (e, a))
      (he : e.event = .deadline link packet)
      (h : (∀ l, w.clock.noted (.deadline l packet) = none) ∨
        ∀ hop, link = .join w.id hop → ∀ p ∈ w.queue hop, p.id ≠ packet) :
      Step w { w with clock := { w.clock with agenda := a }.forget packet }
  | expired {w : Watch} {e : Agenda.Entry Timer} {a : Agenda Timer} {hop : NodeId}
      {before after : List SecuredPacket} {p : SecuredPacket}
      (hpop : w.clock.agenda.pop = some (e, a)) (he : e.event = .deadline (.join w.id hop) p.id)
      (hq : w.queue hop = before ++ p :: after) :
      Step w { w.withQueue hop (before ++ after) with
        clock := { w.clock with agenda := a }.forget p.id }
  /-- A timer fires before its packet is too old, which has its timer set again. -/
  | early {w : Watch} {e : Agenda.Entry Timer} {a : Agenda Timer} {hop : NodeId}
      {p : SecuredPacket} {c : Clock} (hpop : w.clock.agenda.pop = some (e, a))
      (he : e.event = .deadline (.join w.id hop) p.id) (hp : p ∈ w.queue hop)
      (hup : w.up p.link = true) (hw : Waits p ({ w.clock with agenda := a }.forget p.id) c) :
      Step w { w with clock := c }

/-- A packet joins the queue of its next hop. -/
inductive Joined (w : Watch) : Watch → Prop
  | intro {c : Clock} {hop : NodeId} {p : SecuredPacket} (hup : w.up p.link = true)
      (h : Waits p w.clock c) :
      Joined w { w.withQueue hop (w.queue hop ++ [p]) with clock := c }

/-- Steps in a row, after which a packet may join a queue. -/
def Turned (w w' : Watch) : Prop :=
  ∃ v, Relation.ReflTransGen Step w v ∧ (w' = v ∨ Joined v w')

variable {w w' : Watch}

theorem Turned.of_steps (h : Relation.ReflTransGen Step w w') : Turned w w' := ⟨w', h, .inl rfl⟩

theorem Turned.of_step (h : Step w w') : Turned w w' := .of_steps (.single h)

/-- Timers of rounds are set and taken back. -/
theorem Step.rounds {c : Clock} (hs : Steps Timer.AsksRound w.clock c) :
    Step w { w with clock := c } := by
  refine .aside hs ?_ ?_
  · intro t ht hwait
    cases t with
    | deadline => exact ht
    | chargingRound | tick => exact hwait
  · intro ht
    rw [hs.noted_eq (t := .tick) not_false] at ht
    exact .inl ht

/-! ## Queues -/

theorem Step.id_eq (h : Step w w') : w'.id = w.id := by
  cases h <;> rfl

/-- In no step does a packet join a queue or change its place. -/
theorem Step.sublist (h : Step w w') (hop : NodeId) : (w'.queue hop).Sublist (w.queue hop) := by
  have hwith : ∀ {k ps}, ps.Sublist (w.queue k) →
      ((w.withQueue k ps).queue hop).Sublist (w.queue hop) := by
    intro k ps hps
    show (if hop = k then ps else w.queue hop).Sublist _
    split
    · rename_i hk
      exact hk ▸ hps
    · exact List.Sublist.refl _
  cases h with
  | aside | raised | started | stopped | idle | early => exact List.Sublist.refl _
  | lowered => exact hwith (List.nil_sublist _)
  | left hq => exact hwith (hq ▸ List.sublist_append_right _ _)
  | expired _ _ hq =>
    exact hwith (hq ▸ (List.Sublist.refl _).append (List.sublist_cons_self _ _))

/-- The queues hold packets of their own links, and no two packets that wait share a number. -/
structure Orderly (w : Watch) : Prop where
  link : ∀ hop, ∀ p ∈ w.queue hop, p.link = .join w.id hop
  nodup : ∀ hop, ((w.queue hop).map (·.id)).Nodup
  apart : ∀ hop hop', ∀ p ∈ w.queue hop, ∀ q ∈ w.queue hop', p.id = q.id → hop = hop'

theorem Orderly.of_step (h : w.Orderly) (hs : Step w w') : w'.Orderly where
  link hop p hp := hs.id_eq ▸ h.link hop p ((hs.sublist hop).subset hp)
  nodup hop := (h.nodup hop).sublist ((hs.sublist hop).map _)
  apart hop hop' p hp q hq :=
    h.apart hop hop' p ((hs.sublist hop).subset hp) q ((hs.sublist hop').subset hq)

theorem Orderly.eq_of_id (h : w.Orderly) {hop hop' : NodeId} {p q : SecuredPacket}
    (hp : p ∈ w.queue hop) (hq : q ∈ w.queue hop') (hid : p.id = q.id) : p = q := by
  obtain rfl := h.apart hop hop' p hp q hq hid
  exact List.inj_on_of_nodup_map (h.nodup hop) hp hq hid

/-! ## Whatever numbers the packets have -/

/-- What holds whatever numbers the packets have. -/
structure Timed (w : Watch) : Prop where
  kept : w.clock.Kept fun t => ¬ t.EndsWait
  hangs : ∀ link packet id, w.clock.noted (.deadline link packet) = some id → w.up link = true
  ticks : (w.clock.noted .tick).isSome = true → w.clock.phase = .running
  stopped : w.clock.phase = .stopped → ∀ key, w.up key = false

/-- Fewer notes of packets and more links that are up. -/
theorem Timed.of_lapsed (h : w.Timed) (hs : Lapsed w.clock w'.clock) (hup : w'.up = w.up) :
    w'.Timed where
  kept := h.kept.lapsed (fun _ ht => ht) hs
  hangs link packet id hid := hup ▸ h.hangs link packet id (hs.noted _ _ hid)
  ticks ht := hs.phase ▸ h.ticks (hs.others .tick not_false ▸ ht)
  stopped hp := hup ▸ h.stopped (hs.phase ▸ hp)

/-- A packet on a link that is up has its timer set. -/
theorem Timed.of_waits (h : w.Timed) {p : SecuredPacket} (hup : w.up p.link = true) {c : Clock}
    (hw : Waits p w.clock c) : { w with clock := c }.Timed := by
  cases hw with
  | never => exact h
  | «until» _ ha =>
    have hl : { w with clock := w.clock.forget p.id }.Timed :=
      h.of_lapsed (w.clock.lapsed_forget p.id) rfl
    refine ⟨hl.kept.armed ha, ?_, ?_, ?_⟩
    · intro link packet id hid
      by_cases ht : Timer.deadline link packet = .deadline p.link p.id
      · cases ht
        exact hup
      · exact hl.hangs link packet id (ha.others _ ht ▸ hid)
    · intro ht
      rw [ha.others .tick nofun] at ht
      exact ha.phase ▸ hl.ticks ht
    · intro hp
      exact hl.stopped (ha.phase ▸ hp)

theorem Timed.of_disarmed (h : w.Timed) {S : Timer → Prop} (hs : Disarmed S w.clock w'.clock)
    (hup : ∀ link, w'.up link = w.up link ∨
      w'.up link = false ∧ ∀ packet, S (.deadline link packet)) :
    w'.Timed := by
  have hnoted : ∀ t id, w'.clock.noted t = some id → ¬ S t ∧ w.clock.noted t = some id := by
    intro t id hid
    have ht : ¬ S t := fun ht => by
      rw [hs.noted t ht] at hid
      cases hid
    exact ⟨ht, hs.others t ht ▸ hid⟩
  refine ⟨h.kept.disarmed hs, ?_, ?_, ?_⟩
  · intro link packet id hid
    obtain ⟨hS, hold⟩ := hnoted _ id hid
    rcases hup link with heq | ⟨-, hall⟩
    · exact heq ▸ h.hangs link packet id hold
    · exact absurd (hall packet) hS
  · intro ht
    obtain ⟨id, hid⟩ := Option.isSome_iff_exists.1 ht
    exact hs.phase ▸ h.ticks ((hnoted _ id hid).2 ▸ rfl)
  · intro hp key
    rcases hup key with heq | ⟨hdown, -⟩
    · exact heq ▸ h.stopped (hs.phase ▸ hp) key
    · exact hdown

theorem Timed.of_step (h : w.Timed) (hs : Step w w') : w'.Timed := by
  cases hs with
  | @aside c P hs hP htick =>
    refine ⟨hs.kept h.kept, ?_, ?_, ?_⟩
    · intro link packet id hid
      have hnot : ¬ P (.deadline link packet) := fun ht => hP _ ht trivial
      exact h.hangs link packet id (hs.noted_eq hnot ▸ hid)
    · intro ht
      show Clock.phase _ = _
      rw [hs.phase_eq]
      exact (htick ht).elim h.ticks fun hrun => hrun
    · intro hp
      exact h.stopped (hs.phase_eq ▸ hp)
  | raised hphase hup =>
    exact ⟨h.kept, fun link packet id hid => hup link (h.hangs link packet id hid), h.ticks,
      fun hp => absurd hp hphase⟩
  | started =>
    exact ⟨⟨h.kept.distinct, h.kept.pending, h.kept.owned⟩, h.hangs, fun _ => rfl, nofun⟩
  | stopped htick hdown =>
    refine ⟨⟨h.kept.distinct, h.kept.pending, h.kept.owned⟩, h.hangs, fun ht => ?_, fun _ => hdown⟩
    cases ht.symm.trans (congrArg Option.isSome htick)
  | lowered hd hup =>
    refine h.of_disarmed hd fun link => ?_
    by_cases hl : link = .join w.id ‹_›
    · exact .inr ⟨(hup link).trans (if_pos hl), fun packet => .inr ⟨packet, hl ▸ rfl⟩⟩
    · exact .inl ((hup link).trans (if_neg hl))
  | left _ hd => exact h.of_disarmed hd fun _ => .inl rfl
  | idle hpop he _ => exact h.of_lapsed (lapsed_fired hpop he) rfl
  | expired hpop he _ => exact h.of_lapsed (lapsed_fired hpop he) rfl
  | @early e a hop p c hpop he _ hup hw =>
    have hfired : { w with clock := { w.clock with agenda := a }.forget p.id }.Timed :=
      h.of_lapsed (lapsed_fired hpop he) rfl
    exact hfired.of_waits hup hw

theorem Timed.of_joined (h : w.Timed) (hj : Joined w w') : w'.Timed := by
  cases hj with
  | intro hup hw =>
    have hset := h.of_waits hup hw
    exact ⟨hset.kept, hset.hangs, hset.ticks, hset.stopped⟩

theorem Timed.of_turned (h : w.Timed) (hs : Turned w w') : w'.Timed := by
  obtain ⟨v, hsteps, hj⟩ := hs
  have hv : v.Timed := by
    clear hj
    induction hsteps with
    | refl => exact h
    | tail _ hstep ih => exact ih.of_step hstep
  rcases hj with rfl | hj
  · exact hv
  · exact hv.of_joined hj

/-! ## While no two packets that wait share a number -/

/-- Each waiting packet has its timer, set for the first instant at which it is too old. Every timer
of a packet is noted, and every note is that of a packet which waits and can be too old. -/
structure Watched (w : Watch) : Prop where
  kept : w.clock.Kept fun _ => True
  armed : ∀ hop, ∀ p ∈ w.queue hop, ∀ due, p.tooOldAt? = some due →
    ∃ id, w.clock.noted (.deadline p.link p.id) = some id ∧
      ⟨due, id, .deadline p.link p.id⟩ ∈ w.clock.agenda.entries
  owed : ∀ link packet id, w.clock.noted (.deadline link packet) = some id →
    ∃ hop, ∃ p ∈ w.queue hop, p.id = packet ∧ p.link = link ∧ p.tooOldAt?.isSome = true

/-- Packets leave, each with its timer, and those that stay keep theirs. -/
theorem Watched.of_fewer (h : w.Watched) (hk : w'.clock.Kept fun _ => True)
    (hentries : ∀ e ∈ w'.clock.agenda.entries, e.event.EndsWait → e ∈ w.clock.agenda.entries)
    (hqueue : ∀ hop, ∀ p ∈ w'.queue hop, p ∈ w.queue hop)
    (hstay : ∀ hop, ∀ p ∈ w'.queue hop,
      w'.clock.noted (.deadline p.link p.id) = w.clock.noted (.deadline p.link p.id))
    (howed : ∀ link packet id, w'.clock.noted (.deadline link packet) = some id →
      w.clock.noted (.deadline link packet) = some id ∧
        ∀ hop, ∀ p ∈ w.queue hop, p.id = packet → p.link = link → p ∈ w'.queue hop) :
    w'.Watched := by
  refine ⟨hk, ?_, ?_⟩
  · intro hop p hp due hdue
    obtain ⟨id, hid, hmem⟩ := h.armed hop p (hqueue hop p hp) due hdue
    rw [← hstay hop p hp] at hid
    refine ⟨id, hid, ?_⟩
    obtain ⟨due', hmem'⟩ := hk.pending _ id hid
    have hsame := h.kept.distinct _ (hentries _ hmem' trivial) _ hmem rfl
    exact hsame ▸ hmem'
  · intro link packet id hid
    obtain ⟨hold, hstays⟩ := howed link packet id hid
    obtain ⟨hop, p, hp, hpacket, hlink, hdue⟩ := h.owed link packet id hold
    exact ⟨hop, p, hstays hop p hp hpacket hlink, hpacket, hlink, hdue⟩

/-- Timers are taken back with their notes, those of all packets that leave and of no other. -/
theorem Watched.of_disarmed (h : w.Watched) {S : Timer → Prop} (hs : Disarmed S w.clock w'.clock)
    (hqueue : ∀ hop, ∀ p ∈ w'.queue hop, p ∈ w.queue hop)
    (hstay : ∀ hop, ∀ p ∈ w'.queue hop, ¬ S (.deadline p.link p.id))
    (hleave : ∀ hop, ∀ p ∈ w.queue hop, ¬ S (.deadline p.link p.id) → p ∈ w'.queue hop) :
    w'.Watched := by
  refine h.of_fewer (h.kept.disarmed hs) (fun e he _ => ((hs.entries e).1 he).1) hqueue
    (fun hop p hp => hs.others _ (hstay hop p hp)) ?_
  intro link packet id hid
  have ht : ¬ S (.deadline link packet) := fun ht => by
    rw [hs.noted _ ht] at hid
    cases hid
  refine ⟨hs.others _ ht ▸ hid, ?_⟩
  rintro hop p hp rfl rfl
  exact hleave hop p hp ht

/-- A timer that fires is that of a waiting packet, and it goes with its note. -/
theorem Watched.fired (h : w.Watched) (ho : w.Orderly) {e : Agenda.Entry Timer} {a : Agenda Timer}
    {link : LinkKey} {packet : PacketId} (hpop : w.clock.agenda.pop = some (e, a))
    (he : e.event = .deadline link packet) :
    w.clock.noted (.deadline link packet) = some e.id ∧
      (∃ hop, ∃ p ∈ w.queue hop, p.id = packet ∧ p.link = link) ∧
      Disarmed (fun t => ∃ l, t = .deadline l packet) w.clock
        ({ w.clock with agenda := a }.forget packet) := by
  have hmem : e ∈ w.clock.agenda.entries := Agenda.pop_eq_some hpop ▸ List.mem_cons_self
  have hown := he ▸ h.kept.owned e hmem trivial
  obtain ⟨hop, p, hp, rfl, rfl, -⟩ := h.owed link packet e.id hown
  refine ⟨hown, ⟨hop, p, hp, rfl, rfl⟩, rfl, Agenda.nextId_pop hpop, ?_, ?_, ?_⟩
  · intro x
    refine (Agenda.mem_pop hpop h.kept.distinct x).trans (and_congr_right fun hx => ?_)
    constructor
    · rintro hne t ⟨l, rfl⟩ hnoted
      obtain ⟨hop', q, hq, hid, rfl, -⟩ := h.owed l p.id x.id hnoted
      obtain rfl := ho.eq_of_id hq hp hid
      exact hne (Option.some.inj (hnoted.symm.trans hown))
    · exact fun hall hid => hall _ ⟨p.link, rfl⟩ (hid ▸ hown)
  · rintro t ⟨l, rfl⟩
    exact noted_forget_self _ l p.id
  · intro t ht
    cases t with
    | chargingRound key => rfl
    | deadline l q =>
      refine noted_forget_of_ne _ ?_ l
      rintro rfl
      exact ht ⟨l, rfl⟩
    | tick => rfl

/-- A packet with a number that no waiting packet has starts to wait. -/
theorem Watched.of_waits (h : w.Watched) {p : SecuredPacket} {hop : NodeId}
    (hfresh : ∀ k, ∀ q ∈ w.queue k, q.id ≠ p.id) (hw : Waits p w.clock w'.clock)
    (hqueue : ∀ k q, q ∈ w'.queue k ↔ q ∈ w.queue k ∨ q = p ∧ k = hop) : w'.Watched := by
  have hnone : ∀ link, w.clock.noted (.deadline link p.id) = none := by
    intro link
    refine Option.eq_none_iff_forall_ne_some.2 fun id hid => ?_
    obtain ⟨k, q, hq, hsame, -⟩ := h.owed link p.id id hid
    exact hfresh k q hq hsame
  generalize hc : w'.clock = c at hw
  cases hw with
  | never hp =>
    refine ⟨hc ▸ h.kept, ?_, ?_⟩
    · intro k q hq due hdue
      rcases (hqueue k q).1 hq with hq | ⟨rfl, -⟩
      · exact hc ▸ h.armed k q hq due hdue
      · cases hp.symm.trans hdue
    · intro link packet id hid
      obtain ⟨k, q, hq, hrest⟩ := h.owed link packet id (hc ▸ hid)
      exact ⟨k, q, (hqueue k q).2 (.inl hq), hrest⟩
  | @«until» _ due hp ha =>
    rw [forget_eq_self hnone] at ha
    refine ⟨hc ▸ h.kept.armed ha, ?_, ?_⟩
    · intro k q hq due' hdue
      rw [hc]
      rcases (hqueue k q).1 hq with hq | ⟨rfl, -⟩
      · obtain ⟨id, hid, hmem⟩ := h.armed k q hq due' hdue
        have hne : Timer.deadline q.link q.id ≠ .deadline p.link p.id := fun ht =>
          hfresh k q hq (Timer.deadline.inj ht).2
        refine ⟨id, (ha.others _ hne).trans hid, (ha.entries _).2 (.inr ⟨hmem, ?_⟩)⟩
        rw [hnone]
        nofun
      · obtain rfl := Option.some.inj (hp.symm.trans hdue)
        exact ⟨_, ha.noted, (ha.entries _).2 (.inl rfl)⟩
    · intro link packet id hid
      rw [hc] at hid
      by_cases ht : Timer.deadline link packet = .deadline p.link p.id
      · cases ht
        exact ⟨hop, p, (hqueue hop p).2 (.inr ⟨rfl, rfl⟩), rfl, rfl, hp ▸ rfl⟩
      · obtain ⟨k, q, hq, hrest⟩ := h.owed link packet id (ha.others _ ht ▸ hid)
        exact ⟨k, q, (hqueue k q).2 (.inl hq), hrest⟩

theorem mem_withQueue {hop k : NodeId} {ps : List SecuredPacket} {p : SecuredPacket} :
    p ∈ (w.withQueue hop ps).queue k ↔ k = hop ∧ p ∈ ps ∨ k ≠ hop ∧ p ∈ w.queue k := by
  show p ∈ (if k = hop then ps else w.queue k) ↔ _
  by_cases hk : k = hop <;> simp [hk]

theorem mem_queue_iff {hop k : NodeId} {before after : List SecuredPacket} {p q : SecuredPacket}
    (hq : w.queue hop = before ++ p :: after) :
    q ∈ w.queue k ↔ q ∈ (w.withQueue hop (before ++ after)).queue k ∨ q = p ∧ k = hop := by
  rw [mem_withQueue]
  by_cases hk : k = hop
  · rw [hk, hq, List.mem_append, List.mem_cons, List.mem_append]
    simp only [ne_eq, not_true_eq_false, true_and, false_and, or_false, and_true]
    rw [or_left_comm, or_comm]
  · simp [hk]

/-- Without a packet no number of a waiting packet is its own. -/
theorem Orderly.fresh (ho : w.Orderly) {hop : NodeId} {before after : List SecuredPacket}
    {p : SecuredPacket} (hq : w.queue hop = before ++ p :: after) (k : NodeId) :
    ∀ q ∈ (w.withQueue hop (before ++ after)).queue k, q.id ≠ p.id := by
  intro q hin hid
  have hp : p ∈ w.queue hop := (mem_queue_iff hq).2 (.inr ⟨rfl, rfl⟩)
  obtain rfl := ho.eq_of_id ((mem_queue_iff hq).2 (.inl hin)) hp hid
  rcases mem_withQueue.1 hin with ⟨-, hin⟩ | ⟨hk, hin⟩
  · have hnodup := (ho.nodup hop).of_map _
    rw [hq] at hnodup
    exact (List.nodup_middle.1 hnodup).notMem hin
  · exact hk (ho.apart k hop q hin q hp rfl)

/-- The packet whose timer fires leaves its queue. -/
theorem Watched.of_expired (h : w.Watched) (ho : w.Orderly) {e : Agenda.Entry Timer}
    {a : Agenda Timer} {hop : NodeId} {before after : List SecuredPacket} {p : SecuredPacket}
    (hpop : w.clock.agenda.pop = some (e, a)) (he : e.event = .deadline (.join w.id hop) p.id)
    (hq : w.queue hop = before ++ p :: after) :
    { w.withQueue hop (before ++ after) with
      clock := { w.clock with agenda := a }.forget p.id }.Watched := by
  obtain ⟨-, -, hd⟩ := h.fired ho hpop he
  refine h.of_disarmed hd ?_ ?_ ?_
  · exact fun k q hin => (mem_queue_iff hq).2 (.inl hin)
  · rintro k q hin ⟨l, ht⟩
    exact ho.fresh hq k q hin (Timer.deadline.inj ht).2
  · intro k q hin ht
    refine ((mem_queue_iff hq).1 hin).resolve_right ?_
    rintro ⟨rfl, -⟩
    exact ht ⟨q.link, rfl⟩

theorem Watched.of_step (h : w.Watched) (ho : w.Orderly) (hs : Step w w') : w'.Watched := by
  cases hs with
  | @aside c P hs hP _ =>
    have hnot : ∀ link packet, ¬ P (.deadline link packet) := fun _ _ ht => hP _ ht trivial
    refine h.of_fewer (hs.kept h.kept) ?_ (fun _ _ hp => hp)
      (fun _ p _ => hs.noted_eq (hnot p.link p.id)) ?_
    · intro e he hwait
      exact (hs.mem_iff h.kept fun ht => hP _ ht hwait).1 he
    · intro link packet id hid
      exact ⟨hs.noted_eq (hnot link packet) ▸ hid, fun _ _ hp _ _ => hp⟩
  | raised => exact ⟨h.kept, h.armed, h.owed⟩
  | started | stopped =>
    exact ⟨⟨h.kept.distinct, h.kept.pending, h.kept.owned⟩, h.armed, h.owed⟩
  | @lowered c up peer hd _ =>
    refine h.of_disarmed hd ?_ ?_ ?_
    · intro k q hq
      rcases mem_withQueue.1 hq with ⟨-, hin⟩ | ⟨-, hin⟩
      · cases hin
      · exact hin
    · intro k q hq ht
      rcases mem_withQueue.1 hq with ⟨-, hin⟩ | ⟨hk, hin⟩
      · cases hin
      · rcases ht with ht | ⟨packet, ht⟩
        · cases ht
        · have hlink := (ho.link k q hin).symm.trans (Timer.deadline.inj ht).1
          exact hk (LinkKey.join_inj hlink)
    · intro k q hq ht
      refine mem_withQueue.2 (.inr ⟨?_, hq⟩)
      rintro rfl
      exact ht (.inr ⟨q.id, by rw [ho.link k q hq]⟩)
  | @left c hop gone rest hq hd =>
    have hapart : ∀ p ∈ gone, p ∉ rest := by
      have hnodup := (ho.nodup hop).of_map _
      rw [hq] at hnodup
      exact fun p hp hr => List.disjoint_of_nodup_append hnodup hp hr
    have hgone : ∀ p ∈ gone, p ∈ w.queue hop := fun p hp => hq ▸ List.mem_append_left _ hp
    have hrest : ∀ p ∈ rest, p ∈ w.queue hop := fun p hp => hq ▸ List.mem_append_right _ hp
    refine h.of_disarmed hd ?_ ?_ ?_
    · intro k q hq'
      rcases mem_withQueue.1 hq' with ⟨rfl, hin⟩ | ⟨-, hin⟩
      · exact hrest q hin
      · exact hin
    · rintro k q hq' ⟨p, hp, l, ht⟩
      have hid := (Timer.deadline.inj ht).2
      rcases mem_withQueue.1 hq' with ⟨rfl, hin⟩ | ⟨hk, hin⟩
      · obtain rfl := ho.eq_of_id (hrest q hin) (hgone p hp) hid
        exact hapart q hp hin
      · exact hk (ho.apart k hop q hin p (hgone p hp) hid)
    · intro k q hq' ht
      refine mem_withQueue.2 ?_
      by_cases hk : k = hop
      · subst hk
        rw [hq, List.mem_append] at hq'
        exact .inl ⟨rfl, hq'.resolve_left fun hg => ht ⟨q, hg, q.link, rfl⟩⟩
      · exact .inr ⟨hk, hq'⟩
  | @idle e a link packet hpop he hidle =>
    obtain ⟨hnoted, ⟨hop, p, hp, hid, hlink⟩, -⟩ := h.fired ho hpop he
    rcases hidle with hnone | hnone
    · cases (hnone link).symm.trans hnoted
    · exact absurd hid (hnone hop (hlink ▸ ho.link hop p hp) p hp)
  | expired hpop he hq => exact h.of_expired ho hpop he hq
  | @early e a hop p c hpop he hp _ hw =>
    -- the packet might as well have left the queue and joined it again at its old place
    obtain ⟨before, after, hq⟩ := List.append_of_mem hp
    exact (h.of_expired ho hpop he hq).of_waits (ho.fresh hq) hw fun k q => mem_queue_iff hq

/-- A packet joins its queue. -/
theorem Watched.of_joined (h : w.Watched) (ho : w'.Orderly) (hj : Joined w w') : w'.Watched := by
  cases hj with
  | @intro c hop p hup hw =>
    have hmem : ∀ k q, q ∈ (w.withQueue hop (w.queue hop ++ [p])).queue k ↔
        q ∈ w.queue k ∨ q = p ∧ k = hop := by
      intro k q
      rw [mem_withQueue, List.mem_append, List.mem_singleton]
      by_cases hk : k = hop <;> simp [hk]
    refine h.of_waits ?_ hw hmem
    intro k q hq hid
    obtain rfl := ho.apart k hop q ((hmem k q).2 (.inl hq)) p ((hmem hop p).2 (.inr ⟨rfl, rfl⟩)) hid
    have hnodup : (((w.withQueue k (w.queue k ++ [p])).queue k).map (·.id)).Nodup := ho.nodup k
    rw [show (w.withQueue k (w.queue k ++ [p])).queue k = w.queue k ++ [p] from if_pos rfl,
      List.map_append, List.nodup_append] at hnodup
    exact hnodup.2.2 _ (List.mem_map_of_mem hq) _ (List.mem_map_of_mem List.mem_cons_self) hid

/-- It is enough that no two packets share a number before and after a turn. -/
theorem Watched.of_turned (h : w.Watched) (ho : w.Orderly) (ho' : w'.Orderly) (hs : Turned w w') :
    w'.Watched := by
  obtain ⟨v, hsteps, hj⟩ := hs
  have hv : v.Watched ∧ v.Orderly := by
    clear hj
    induction hsteps with
    | refl => exact ⟨h, ho⟩
    | tail _ hstep ih => exact ⟨ih.1.of_step ih.2 hstep, ih.2.of_step hstep⟩
  rcases hj with rfl | hj
  · exact hv.1
  · exact hv.1.of_joined ho' hj

end Watch

end KeyReserve
