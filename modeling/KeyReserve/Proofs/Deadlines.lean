import KeyReserve.Proofs.Turns
import Mathlib.Data.List.Infix
import Mathlib.Data.List.Lattice
import Mathlib.Data.List.Pairwise

/-!
# Deadlines

A node that is driven on its agenda, and on which no two packets wait with one number at the same
time, has a timer pending for each waiting packet that can come to be too old, and no other timer of
a packet. So once all timers that are due have fired, no packet waits that is too old.

A second packet with the number of one that waits takes over its note. The timer of the first is
then pending without a note, and nothing takes it back: neither the end of its link nor that of the
node.

## Main definitions

* `Node.DistinctWaiting`: no two packets that wait share a number;
* `Node.Punctual`: the deadlines, the timers and the waiting packets agree;
* `Node.Forgotten`: a timer is pending of which there is no note.

## Main results

* `Node.expire_on_time`: deadlines agree with the waiting packets, and these expire on time;
* `Node.timers_left`: which timers outlive a link, and which the node.
-/

namespace KeyReserve

/-- While no entry is due, all are due later. -/
theorem Agenda.lt_due_of_popDue {α : Type} {a : Agenda α} {now : Millis} (h : a.popDue now = none) :
    ∀ e ∈ a.entries, now < e.due := by
  unfold popDue nextTime? at h
  obtain ⟨entries, nextId, ordered, numbered⟩ := a
  cases entries with
  | nil => exact fun e he => absurd he List.not_mem_nil
  | cons x xs =>
    simp only [List.head?_cons, Option.map_some] at h
    split at h
    · cases h
    · rename_i hlater
      have hfirst : now < x.due := UInt64.not_le.1 hlater
      intro e he
      rcases List.mem_cons.1 he with rfl | he
      · exact hfirst
      · rcases (List.pairwise_cons.1 ordered).1 e he with hlt | ⟨heq, -⟩
        · exact UInt64.lt_trans hfirst hlt
        · exact heq ▸ hfirst

/-- The packet whose wait the timer ends. -/
def Timer.packet? : Timer → Option PacketId
  | .deadline _ packet => some packet
  | _ => none

theorem Timer.packet?_eq_some_iff {t : Timer} {packet : PacketId} :
    t.packet? = some packet ↔ ∃ link, t = .deadline link packet := by
  cases t <;> simp [packet?]

/-- The transport that takes requests for key material, and no secured packet yet. -/
def Transport.reluctant : Transport where
  answer
    | _, .secured p => some (.busy p.nextHop)
    | _, _ => none

/-- The link of a pair comes up and is charged, and two packets start to wait for it. -/
def Turn.pairRun (second : PacketId) : List Turn :=
  [.call (.start 0) rfl, .call (.chargeDelivered ⟨2⟩ 65 100) rfl,
    .call (.sendSecured ⟨⟨7⟩, ⟨2⟩, 5⟩ (some 50) 100) rfl,
    .call (.sendSecured ⟨second, ⟨2⟩, 5⟩ (some 80) 100) rfl]

namespace Node

/-- No two packets that wait share a number. -/
def DistinctWaiting (n : Node) : Prop := ((n.queues.entries.flatMap (·.2)).map (·.id)).Nodup

instance (n : Node) : Decidable n.DistinctWaiting := inferInstanceAs (Decidable (List.Nodup _))

/-- The deadlines of a node are those of the waiting packets that can come to be too old. Each has
one timer pending, due one millisecond after the deadline. -/
structure Punctual (n : Node) : Prop where
  tracked : ∀ packet, (n.deadlines.find? packet).isSome = true ↔
    ∃ hop, ∃ p ∈ n.queue hop, p.id = packet ∧ ∃ now, (p.expiry? now).isSome = true
  timer : ∀ hop, ∀ p ∈ n.queue hop, (∃ now, (p.expiry? now).isSome = true) →
    ∃ deadline due id, p.delay.bind (·.deadline?) = some deadline ∧
      due.toNat = deadline.toNat + 1 ∧ n.deadlines.find? p.id = some ⟨p.link, id⟩ ∧
      n.agenda.entries.filter (·.event.packet? = some p.id) = [⟨due, id, .deadline p.link p.id⟩]
  /-- No timer of a packet is pending apart from these. -/
  owned : ∀ e ∈ n.agenda.entries, ∀ link packet, e.event = .deadline link packet →
    n.deadlines.find? packet = some ⟨link, e.id⟩

open Clock

variable {n : Node}

/-! ## Packets with numbers of their own -/

theorem queue_nodup (h : n.DistinctWaiting) (hop : NodeId) : ((n.queue hop).map (·.id)).Nodup := by
  rw [DistinctWaiting, List.map_flatMap, List.nodup_flatMap] at h
  unfold queue
  cases hq : n.queues.find? hop with
  | none => exact List.nodup_nil
  | some ps => exact h.1 (hop, ps) (Table.find?_eq_some_iff.1 hq)

theorem mem_entries_of_mem_queue {hop : NodeId} {p : SecuredPacket} (hp : p ∈ n.queue hop) :
    ∃ ps, (hop, ps) ∈ n.queues.entries ∧ p ∈ ps := by
  unfold queue at hp
  cases hq : n.queues.find? hop with
  | none =>
    rw [hq] at hp
    cases hp
  | some ps =>
    rw [hq] at hp
    exact ⟨ps, Table.find?_eq_some_iff.1 hq, hp⟩

theorem queue_apart (h : n.DistinctWaiting) {hop hop' : NodeId} {p q : SecuredPacket}
    (hp : p ∈ n.queue hop) (hq : q ∈ n.queue hop') (hid : p.id = q.id) : hop = hop' := by
  rw [DistinctWaiting, List.map_flatMap, List.nodup_flatMap] at h
  obtain ⟨ps, hps, hp⟩ := mem_entries_of_mem_queue hp
  obtain ⟨qs, hqs, hq⟩ := mem_entries_of_mem_queue hq
  by_contra hne
  have hsymm : Std.Symm (Function.onFun List.Disjoint
      fun e : NodeId × List SecuredPacket => e.2.map (·.id)) := ⟨fun _ _ hd => hd.symm⟩
  have hdisjoint := h.2.forall hps hqs fun heq => hne (congrArg Prod.fst heq)
  exact hdisjoint (List.mem_map_of_mem hp) (hid ▸ List.mem_map_of_mem hq)

theorem orderly_watch (h : n.Sound) (hd : n.DistinctWaiting) : n.watch.Orderly where
  link hop p hp := by
    rw [(h.orderly.proper hop p hp).link, h.orderly.nextHop hop p hp]
    rfl
  nodup := queue_nodup hd
  apart _ _ _ hp _ hq := queue_apart hd hp hq

theorem watched_create {config : Config} {t : Transport} (h : create config t = .ok n) :
    n.watch.Watched := by
  have hk := (timed_create h).kept
  unfold create at h
  split at h <;> cases h
  exact ⟨⟨hk.distinct, hk.pending, fun e he => absurd he List.not_mem_nil⟩,
    fun hop p hp => absurd hp List.not_mem_nil, nofun⟩

theorem watched_drive (hs : n.Sound) (ht : n.watch.Timed) (hw : n.watch.Watched) {ts : List Turn}
    (hd : ∀ us, us <+: ts → (n.drive us).DistinctWaiting) : (n.drive ts).watch.Watched := by
  induction ts using List.reverseRecOn with
  | nil => exact hw
  | append_singleton ts t ih =>
    have hbefore := ih fun us hus => hd us (hus.trans (List.prefix_append ts [t]))
    rw [drive_concat]
    refine hbefore.of_turned ?_ ?_ (turned (sound_drive hs ts) (timed_drive hs ht ts) t)
    · exact orderly_watch (sound_drive hs ts) (hd ts (List.prefix_append ts [t]))
    · exact drive_concat n ts t ▸
        orderly_watch (sound_drive hs (ts ++ [t])) (hd _ (List.prefix_refl _))

/-! ## Deadlines of waiting packets -/

/-- A packet can come to be too old exactly if there is a first instant at which it is. -/
theorem exists_expiry_iff (p : SecuredPacket) :
    (∃ now, (p.expiry? now).isSome = true) ↔ ∃ due, p.tooOldAt? = some due := by
  constructor
  · rintro ⟨now, hnow⟩
    obtain ⟨due, hdue, -⟩ := (p.isSome_expiry? now).1 hnow
    exact ⟨due, hdue⟩
  · rintro ⟨due, hdue⟩
    exact ⟨due, (p.isSome_expiry? due).2 ⟨due, hdue, UInt64.le_refl due⟩⟩

theorem punctual_of_watched (h : n.watch.Watched) : n.Punctual where
  tracked packet := by
    simp only [exists_expiry_iff]
    constructor
    · intro hsome
      obtain ⟨⟨link, id⟩, hfind⟩ := Option.isSome_iff_exists.1 hsome
      obtain ⟨hop, p, hp, hid, -, hdue⟩ := h.owed link packet id (noted_deadline_eq_some.2 hfind)
      exact ⟨hop, p, hp, hid, Option.isSome_iff_exists.1 hdue⟩
    · rintro ⟨hop, p, hp, rfl, due, hdue⟩
      obtain ⟨id, hid, -⟩ := h.armed hop p hp due hdue
      rw [noted_deadline_eq_some.1 hid]
      rfl
  timer hop p hp hold := by
    obtain ⟨due, hdue⟩ := (exists_expiry_iff p).1 hold
    obtain ⟨id, hid, hmem⟩ := h.armed hop p hp due hdue
    obtain ⟨deadline, hdeadline, -, -, hnext⟩ := SecuredPacket.deadline_of_tooOldAt? hdue
    refine ⟨deadline, due, id, hdeadline, hnext, noted_deadline_eq_some.1 hid, ?_⟩
    rw [← List.perm_singleton]
    refine (List.perm_ext_iff_of_nodup (n.agenda.nodup_entries.filter _)
      (List.nodup_singleton _)).2 fun e => ?_
    rw [List.mem_filter, decide_eq_true_eq, Timer.packet?_eq_some_iff, List.mem_singleton]
    constructor
    · rintro ⟨he, link, hevent⟩
      have hown := noted_deadline_eq_some.1 (hevent ▸ h.kept.owned e he trivial)
      have hsame := (noted_deadline_eq_some.1 hid).symm.trans hown
      rw [Option.some.injEq, Deadline.mk.injEq] at hsame
      exact h.kept.distinct e he _ hmem hsame.2.symm
    · rintro rfl
      exact ⟨hmem, p.link, rfl⟩
  owned e he link packet hevent :=
    noted_deadline_eq_some.1 (hevent ▸ h.kept.owned e he trivial)

/-! ## Packets expire on time -/

/-- What holds of a node that is driven on its agenda, while no two packets wait with one number. -/
structure OnTime (n : Node) : Prop where
  sound : n.Sound
  timed : n.watch.Timed
  orderly : n.watch.Orderly
  watched : n.watch.Watched

theorem onTime_drive {config : Config} {t : Transport} (h : create config t = .ok n)
    {ts : List Turn} (hd : ∀ us, us <+: ts → (n.drive us).DistinctWaiting) :
    (n.drive ts).OnTime where
  sound := sound_drive (sound_create h) ts
  timed := timed_drive (sound_create h) (timed_create h) ts
  orderly := orderly_watch (sound_drive (sound_create h) ts) (hd ts (List.prefix_refl ts))
  watched := watched_drive (sound_create h) (timed_create h) (watched_create h) hd

theorem OnTime.fireNext (h : n.OnTime) {now : Millis} {e : Agenda.Entry Timer} {m : Node}
    (hm : n.fireNext now = some (e, m)) : m.OnTime := by
  obtain ⟨a, hpop, -, rfl⟩ := fireNext_eq_some hm
  have hs := step_fired h.sound h.timed hpop e.due
  exact ⟨(h.sound.apply (.rearrange a)).apply (.timer e.event e.due), h.timed.of_step hs,
    h.orderly.of_step hs, h.watched.of_step h.orderly hs⟩

theorem OnTime.fireDue (h : n.OnTime) (now : Millis) (limit : Nat) :
    (n.fireDue now limit).2.OnTime := by
  induction limit generalizing n with
  | zero => exact h
  | succ limit ih =>
    unfold Node.fireDue
    split
    · exact h
    · rename_i hm
      exact ih (h.fireNext hm)

theorem lt_due_of_fireNext {now : Millis} (hdry : n.fireNext now = none) :
    ∀ e ∈ n.agenda.entries, now < e.due := by
  refine Agenda.lt_due_of_popDue ?_
  unfold Node.fireNext at hdry
  split at hdry
  · assumption
  · cases hdry

/-- Where no timer is due, no packet that waits is too old. -/
theorem OnTime.expiry? (h : n.OnTime) {now : Millis} (hdry : n.fireNext now = none) {hop : NodeId}
    {p : SecuredPacket} (hp : p ∈ n.queue hop) : p.expiry? now = none := by
  refine Option.not_isSome_iff_eq_none.1 fun hsome => ?_
  obtain ⟨due, hdue, hle⟩ := (p.isSome_expiry? now).1 hsome
  obtain ⟨id, -, hmem⟩ := h.watched.armed hop p hp due hdue
  exact UInt64.not_le.2 (lt_due_of_fireNext hdry _ hmem) hle

/-- On a node that is driven on its agenda, and on which no two packets wait with one number at the
same time, the deadlines are those of the waiting packets. Once what is due has fired, no packet
waits that is too old. -/
theorem expire_on_time {config : Config} {t : Transport} (h : create config t = .ok n)
    {ts : List Turn} (hd : ∀ us, us <+: ts → (n.drive us).DistinctWaiting) :
    (n.drive ts).Punctual ∧
      ∀ now limit, ((n.drive ts).fireDue now limit).2.fireNext now = none →
        ∀ hop, ∀ p ∈ ((n.drive ts).fireDue now limit).2.queue hop, p.expiry? now = none := by
  have hon := onTime_drive h hd
  refine ⟨punctual_of_watched hon.watched, ?_⟩
  intro now limit hdry hop p hp
  exact (hon.fireDue now limit).expiry? hdry hp

/-- Of two packets, the one whose bound is up is dropped in time, and the other waits on. -/
theorem expire_on_time_pair : ∃ n, create .pair .reluctant = .ok n ∧
    (n.drive (Turn.pairRun ⟨8⟩)).Punctual ∧
    ((n.drive (Turn.pairRun ⟨8⟩)).queue ⟨2⟩).map (·.id) = [⟨7⟩, ⟨8⟩] ∧
    (((n.drive (Turn.pairRun ⟨8⟩)).fireDue 151 2).2.queue ⟨2⟩).map (·.id) = [⟨8⟩] ∧
    ∀ p ∈ ((n.drive (Turn.pairRun ⟨8⟩)).fireDue 151 2).2.queue ⟨2⟩, p.expiry? 151 = none := by
  obtain ⟨n, hn, hd, hdry, hbefore, hafter⟩ : ∃ n, create .pair .reluctant = .ok n ∧
      (∀ us ∈ (Turn.pairRun ⟨8⟩).inits, (n.drive us).DistinctWaiting) ∧
      (((n.drive (Turn.pairRun ⟨8⟩)).fireDue 151 2).2.fireNext 151).isNone = true ∧
      ((n.drive (Turn.pairRun ⟨8⟩)).queue ⟨2⟩).map (·.id) = [⟨7⟩, ⟨8⟩] ∧
      (((n.drive (Turn.pairRun ⟨8⟩)).fireDue 151 2).2.queue ⟨2⟩).map (·.id) = [⟨8⟩] :=
    ⟨_, rfl, by decide +kernel, by decide +kernel, by decide +kernel, by decide +kernel⟩
  obtain ⟨hpunctual, hexpire⟩ :=
    expire_on_time hn fun us hus => hd us ((List.mem_inits us _).2 hus)
  exact ⟨n, hn, hpunctual, hbefore, hafter,
    hexpire 151 2 (Option.isNone_iff_eq_none.1 hdry) ⟨2⟩⟩

/-! ## Timers that are forgotten -/

/-- A timer is pending of which there is no note. -/
def Forgotten (n : Node) (e : Agenda.Entry Timer) : Prop :=
  e ∈ n.agenda.entries ∧ n.noted e.event ≠ some e.id

/-- A timer that is noted is the tick, or one of a link that is up. -/
theorem hangs_of_noted (ht : n.watch.Timed) (ha : n.reserve.Attended) {t : Timer} {id : TimerId}
    (h : n.noted t = some id) : t = .tick ∨ ∃ k ∈ n.links.keys, t.HangsOn k := by
  cases t with
  | chargingRound link =>
    obtain ⟨s, hs, -⟩ := Option.bind_eq_some_iff.1 h
    refine .inr ⟨link, Table.mem_keys_iff.2 ?_, .inl rfl⟩
    rw [← Table.contains_eq_isSome, ← isSome_meters]
    refine ha link ?_
    rw [n.sessions_of_session? hs]
    rfl
  | deadline link packet =>
    refine .inr ⟨link, Table.mem_keys_iff.2 ?_, .inr ⟨packet, rfl⟩⟩
    rw [← Table.contains_eq_isSome]
    exact ht.hangs link packet id h
  | tick => exact .inl rfl

/-- The end of a link takes back the timers of its packets that are noted, and no others of them. -/
theorem mem_teardown_iff (ht : n.watch.Timed) {peer : NodeId} {packet : PacketId}
    {e : Agenda.Entry Timer} (he : e.event = .deadline (n.linkTo peer) packet) :
    e ∈ (n.teardown peer).2.agenda.entries ↔ n.Forgotten e :=
  ht.kept.mem_disarmed (n.disarmed_teardown peer) fun _ => .inr ⟨packet, he⟩

/-- The end of a node takes back the timers that are noted, and no others. -/
theorem mem_shutdown_iff (hs : n.Sound) (ht : n.watch.Timed) (ha : n.reserve.Attended)
    (e : Agenda.Entry Timer) : e ∈ n.shutdown.agenda.entries ↔ n.Forgotten e := by
  unfold shutdown
  split
  · rename_i hstopped
    refine (and_iff_left fun hid => ?_).symm
    rcases hangs_of_noted ht ha hid with htick | ⟨k, hk, -⟩
    · have hset : (n.clock.noted e.event).isSome = true := congrArg Option.isSome hid
      cases (ht.ticks (htick ▸ hset)).symm.trans hstopped
    · have hup : n.links.contains k = true := Table.mem_keys_iff.1 hk
      cases hup.symm.trans (ht.stopped hstopped k)
  · have hdown := n.disarmed_teardownAll (Sound.linkTo_of_mem_keys n hs)
    have hall := hdown.trans (n.teardownAll n.links.keys).disarmed_tick
    exact ht.kept.mem_disarmed hall fun hid => (hangs_of_noted ht ha hid).symm

/-- On a node that is driven on its agenda, the end of a link leaves just those timers of its
packets pending that are forgotten, and the end of the node just those that are forgotten at all. All
of them are timers of packets, and there are none unless two packets waited with one number. -/
theorem timers_left {config : Config} {t : Transport} (h : create config t = .ok n)
    (ts : List Turn) :
    (∀ peer packet e, e.event = .deadline ((n.drive ts).linkTo peer) packet →
      (e ∈ ((n.drive ts).teardown peer).2.agenda.entries ↔ (n.drive ts).Forgotten e)) ∧
    (∀ e, e ∈ (n.drive ts).shutdown.agenda.entries ↔ (n.drive ts).Forgotten e) ∧
    (∀ e, (n.drive ts).Forgotten e → ∃ link packet, e.event = .deadline link packet) ∧
    ((∀ us, us <+: ts → (n.drive us).DistinctWaiting) → ∀ e, ¬ (n.drive ts).Forgotten e) := by
  have hs := sound_drive (sound_create h) ts
  have ht := timed_drive (sound_create h) (timed_create h) ts
  have ha : (n.drive ts).reserve.Attended := by
    obtain ⟨cs, hcs⟩ := n.exists_run ts
    exact hcs ▸ attended_run (attended_create h) cs
  refine ⟨fun peer packet e he => mem_teardown_iff ht he, mem_shutdown_iff hs ht ha, ?_, ?_⟩
  · rintro ⟨due, id, event⟩ ⟨he, hne⟩
    cases event with
    | deadline link packet => exact ⟨link, packet, rfl⟩
    | chargingRound | tick => exact absurd (ht.kept.owned _ he not_false) hne
  · rintro hd e ⟨he, hne⟩
    exact hne ((onTime_drive h hd).watched.kept.owned e he trivial)

/-- The second packet has the number of the first, whose timer outlives the link and the node. Where
the packets have numbers of their own, no timer is forgotten. -/
theorem timers_left_pair : ∃ n, create .pair .reluctant = .ok n ∧
    ⟨151, ⟨2⟩, .deadline (.join ⟨1⟩ ⟨2⟩) ⟨7⟩⟩ ∈
      ((n.drive (Turn.pairRun ⟨7⟩)).teardown ⟨2⟩).2.agenda.entries ∧
    ⟨151, ⟨2⟩, .deadline (.join ⟨1⟩ ⟨2⟩) ⟨7⟩⟩ ∈
      (n.drive (Turn.pairRun ⟨7⟩)).shutdown.agenda.entries ∧
    ∀ e, ¬ (n.drive (Turn.pairRun ⟨8⟩)).Forgotten e := by
  obtain ⟨n, hn, hid, hforgotten, hd⟩ : ∃ n, create .pair .reluctant = .ok n ∧
      (n.drive (Turn.pairRun ⟨7⟩)).id = ⟨1⟩ ∧
      (n.drive (Turn.pairRun ⟨7⟩)).Forgotten ⟨151, ⟨2⟩, .deadline (.join ⟨1⟩ ⟨2⟩) ⟨7⟩⟩ ∧
      ∀ us ∈ (Turn.pairRun ⟨8⟩).inits, (n.drive us).DistinctWaiting :=
    ⟨_, rfl, by decide +kernel, ⟨by decide +kernel, by decide +kernel⟩, by decide +kernel⟩
  obtain ⟨hteardown, hshutdown, -, -⟩ := timers_left hn (Turn.pairRun ⟨7⟩)
  obtain ⟨-, -, -, hnone⟩ := timers_left hn (Turn.pairRun ⟨8⟩)
  exact ⟨n, hn, (hteardown ⟨2⟩ ⟨7⟩ _ (by rw [linkTo, hid])).2 hforgotten,
    (hshutdown _).2 hforgotten, hnone fun us hus => hd us ((List.mem_inits us _).2 hus)⟩

end Node

end KeyReserve
