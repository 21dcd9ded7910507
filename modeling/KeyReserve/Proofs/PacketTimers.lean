import KeyReserve.Proofs.Lifecycle
import KeyReserve.Proofs.RoundTimers

/-!
# The timers of waiting packets

What packets that wait do to the clock of a node. The timer of a packet is set when the packet
starts to wait, for the first instant at which it is too old, and is taken back when the packet
leaves its queue. A link that goes down takes the timers of its packets along.

## Main definitions

* `SecuredPacket.tooOldAt?`: the first instant at which a packet is too old;
* `Clock.Waits`: a packet has its timer set, if it can be too old.

## Main results

* `SecuredPacket.isSome_expiry?`: a packet is reported too old from that instant on;
* `Node.waits_armDeadline`, `Node.disarmed_disarmDeadline`: the timer of a packet;
* `Node.disarmed_sendWaiting`: packets that leave a queue take their timers along;
* `Node.disarmed_teardown`, `Node.disarmed_teardownAll`: all timers of a link go with it.
-/

namespace KeyReserve

theorem Agenda.mem_foldl_cancel {α : Type} (a : Agenda α) (ids : List TimerId) (e : Entry α) :
    e ∈ (ids.foldl (fun a t => a.cancel t) a).entries ↔ e ∈ a.entries ∧ e.id ∉ ids := by
  induction ids generalizing a with
  | nil => simp
  | cons id ids ih =>
    rw [List.foldl_cons, ih, mem_cancel, List.mem_cons, not_or, and_assoc]

theorem Agenda.nextId_foldl_cancel {α : Type} (a : Agenda α) (ids : List TimerId) :
    (ids.foldl (fun a t => a.cancel t) a).nextId = a.nextId :=
  List.foldlRecOn (motive := fun b : Agenda α => b.nextId = a.nextId) ids _ rfl fun _ hb _ _ => hb

theorem Deadlines.mem_timersOf {d : Deadlines} {link : LinkKey} {t : TimerId} :
    t ∈ d.timersOf link ↔ ∃ packet, d.find? packet = some ⟨link, t⟩ := by
  unfold timersOf
  rw [List.mem_mergeSort, List.mem_map]
  constructor
  · rintro ⟨⟨packet, l, t'⟩, he, rfl⟩
    rw [List.mem_filter, decide_eq_true_eq] at he
    obtain ⟨he, rfl⟩ := he
    exact ⟨packet, Table.find?_eq_some_iff.2 he⟩
  · rintro ⟨packet, hp⟩
    exact ⟨⟨packet, link, t⟩,
      List.mem_filter.2 ⟨Table.find?_eq_some_iff.1 hp, decide_eq_true rfl⟩, rfl⟩

theorem Deadlines.find?_dropLink (d : Deadlines) (link : LinkKey) (packet : PacketId) :
    (d.dropLink link).find? packet = (d.find? packet).filter (·.link ≠ link) :=
  Table.find?_filter _ _ _

namespace SecuredPacket

/-- The first instant at which a waiting packet is too old: the one after its deadline, where the
range of times has one. -/
def tooOldAt? (p : SecuredPacket) : Option Millis :=
  (p.delay.bind (·.deadline?)).bind fun deadline =>
    if deadline = 0xFFFFFFFFFFFFFFFF then none else some (deadline + 1)

theorem deadline_of_tooOldAt? {p : SecuredPacket} {due : Millis} (h : p.tooOldAt? = some due) :
    ∃ deadline, p.delay.bind (·.deadline?) = some deadline ∧ deadline ≠ 0xFFFFFFFFFFFFFFFF ∧
      due = deadline + 1 ∧ due.toNat = deadline.toNat + 1 := by
  obtain ⟨deadline, hd, hnext⟩ := Option.bind_eq_some_iff.1 h
  split at hnext
  · cases hnext
  · rename_i hne
    cases hnext
    refine ⟨deadline, hd, hne, rfl, ?_⟩
    have hmax := deadline.toNat_lt
    have hlast : (0xFFFFFFFFFFFFFFFF : UInt64).toNat = 18446744073709551615 := rfl
    have hone : (1 : UInt64).toNat = 1 := rfl
    rw [← UInt64.toNat_inj, hlast] at hne
    rw [UInt64.toNat_add, hone]
    omega

theorem tooOldAt?_eq_some_iff {p : SecuredPacket} {due : Millis} :
    p.tooOldAt? = some due ↔ ∃ tag, p.delay = some tag ∧ 0 < tag.maxDelay ∧
      due.toNat = tag.createdAt.toNat + tag.maxDelay.toNat + 1 := by
  unfold tooOldAt?
  cases p.delay with
  | none => simp
  | some tag =>
    simp only [Option.bind_some, DelayTag.deadline?, Option.some.injEq, exists_eq_left']
    by_cases hpos : 0 < tag.maxDelay
    · have hsum := UInt64.toNat_addSat tag.createdAt tag.maxDelay
      have hlast : (0xFFFFFFFFFFFFFFFF : UInt64).toNat = 18446744073709551615 := rfl
      have hone : (1 : UInt64).toNat = 1 := rfl
      have hdue := due.toNat_lt
      rw [UInt64.size] at hsum
      rw [if_pos hpos, Option.bind_some]
      split <;> rename_i hmax <;> rw [← UInt64.toNat_inj, hlast] at hmax
      · simp only [reduceCtorEq, hpos, true_and, false_iff]
        omega
      · rw [Option.some.injEq, ← UInt64.toNat_inj, UInt64.toNat_add, hone]
        simp only [hpos, true_and]
        omega
    · simp [hpos]

/-- A packet is reported too old from that instant on. -/
theorem isSome_expiry? (p : SecuredPacket) (now : Millis) :
    (p.expiry? now).isSome = true ↔ ∃ due, p.tooOldAt? = some due ∧ due ≤ now := by
  simp only [tooOldAt?_eq_some_iff, UInt64.le_iff_toNat_le]
  unfold expiry?
  cases p.delay with
  | none => simp
  | some tag =>
    have hnow := now.toNat_lt
    have hexpired : tag.isExpired now = true ↔ 0 < tag.maxDelay ∧
        tag.createdAt.toNat + tag.maxDelay.toNat + 1 ≤ now.toNat := by
      rw [DelayTag.isExpired_iff, UInt64.lt_iff_toNat_lt, UInt64.toNat_zero]
      omega
    simp only [Option.isSome_ite, hexpired]
    constructor
    · rintro ⟨hpos, hle⟩
      refine ⟨.ofNat (tag.createdAt.toNat + tag.maxDelay.toNat + 1), ⟨tag, rfl, hpos, ?_⟩, ?_⟩ <;>
        rw [UInt64.toNat_ofNat_of_lt' (by rw [UInt64.size]; omega)]
      exact hle
    · rintro ⟨due, ⟨_, hd, hpos, hdue⟩, hle⟩
      cases hd
      exact ⟨hpos, hdue ▸ hle⟩

end SecuredPacket

/-- A packet has its timer set, if there is an instant at which it is too old. A note of another
packet with its number is dropped. -/
inductive Clock.Waits (p : SecuredPacket) (c : Clock) : Clock → Prop
  | never (h : p.tooOldAt? = none) : Waits p c c
  | until {c' : Clock} {due : Millis} (h : p.tooOldAt? = some due)
      (ha : Armed (.deadline p.link p.id) due (c.forget p.id) c') : Waits p c c'

namespace Node

open Clock

variable (n : Node)

/-! ## Timers set and taken back -/

theorem noted_deadline_congr {n m : Node} {packet : PacketId}
    (h : m.deadlines.find? packet = n.deadlines.find? packet) (link : LinkKey) :
    m.noted (.deadline link packet) = n.noted (.deadline link packet) := by
  show (m.deadlines.find? packet).bind _ = (n.deadlines.find? packet).bind _
  rw [h]

theorem noted_deadline_eq_none {n : Node} {link : LinkKey} {packet : PacketId}
    (h : ∀ id, n.deadlines.find? packet ≠ some ⟨link, id⟩) :
    n.noted (.deadline link packet) = none :=
  Option.eq_none_iff_forall_ne_some.2 fun id hid => h id (noted_deadline_eq_some.1 hid)

theorem clock_eraseDeadline (packet : PacketId) :
    { n with deadlines := n.deadlines.erase packet }.clock = n.clock.forget packet := by
  have hnoted : { n with deadlines := n.deadlines.erase packet }.noted =
      (n.clock.forget packet).noted := by
    funext t
    cases t with
    | chargingRound link => rfl
    | deadline link q =>
      by_cases hq : q = packet
      · rw [hq, noted_forget_self]
        refine noted_deadline_eq_none fun id => ?_
        rw [Table.find?_erase, if_pos rfl]
        nofun
      · rw [noted_forget_of_ne _ hq]
        exact noted_deadline_congr ((n.deadlines.find?_erase packet q).trans (if_neg hq)) link
    | tick => rfl
  exact congrArg (Clock.mk n.phase n.agenda) hnoted

/-- The timer of a packet is taken back with its note. -/
theorem disarmed_disarmDeadline (packet : PacketId) :
    Disarmed (fun t => ∃ link, t = .deadline link packet) n.clock
      (n.disarmDeadline packet).clock := by
  unfold disarmDeadline
  simp only
  rw [clock_cancelTimer, clock_eraseDeadline]
  refine .of_cancel rfl rfl ?_ ?_ ?_
  · intro i
    rw [Deadlines.timer?, Option.map_eq_some_iff]
    constructor
    · rintro ⟨⟨link, _⟩, hd, rfl⟩
      exact ⟨_, ⟨link, rfl⟩, noted_deadline_eq_some.2 hd⟩
    · rintro ⟨_, ⟨link, rfl⟩, hnoted⟩
      exact ⟨⟨link, i⟩, noted_deadline_eq_some.1 hnoted, rfl⟩
  · rintro t ⟨link, rfl⟩
    exact n.clock.noted_forget_self link packet
  · intro t ht
    cases t with
    | chargingRound link => rfl
    | deadline link q =>
      refine n.clock.noted_forget_of_ne ?_ link
      rintro rfl
      exact ht ⟨link, rfl⟩
    | tick => rfl

theorem armDeadline_of_none {p : SecuredPacket} (h : p.tooOldAt? = none) (notBefore : Millis) :
    n.armDeadline p notBefore = n := by
  unfold armDeadline
  split
  · rfl
  · rename_i deadline hd
    have hmax : deadline = 0xFFFFFFFFFFFFFFFF := by
      rw [SecuredPacket.tooOldAt?, hd, Option.bind_some] at h
      by_contra hne
      rw [if_neg hne] at h
      cases h
    have hle : notBefore ≤ deadline :=
      hmax ▸ UInt64.le_iff_toNat_le.2 (Nat.le_of_lt_succ notBefore.toNat_lt)
    simp only [if_pos hle, if_pos hmax]

/-- The timer of a packet is set and noted in place of any other for a packet of its number. -/
theorem armed_insertDeadline (p : SecuredPacket) (due : Millis) :
    Armed (.deadline p.link p.id) due (n.clock.forget p.id)
      { (n.schedule due (.deadline p.link p.id)).2 with
        deadlines := n.deadlines.insert p.id ⟨p.link, ⟨n.agenda.nextId⟩⟩ }.clock := by
  have hinsert := fun q => n.deadlines.find?_insert p.id q ⟨p.link, ⟨n.agenda.nextId⟩⟩
  refine ⟨rfl, rfl, ?_, ?_, ?_⟩
  · intro e
    refine Agenda.mem_schedule.trans (or_congr_right ⟨fun he => ⟨he, ?_⟩, And.left⟩)
    rw [noted_forget_self]
    nofun
  · exact noted_deadline_eq_some.2 ((hinsert p.id).trans (if_pos rfl))
  · intro t ht
    cases t with
    | chargingRound link => rfl
    | deadline link q =>
      by_cases hq : q = p.id
      · obtain rfl := hq
        rw [noted_forget_self]
        refine noted_deadline_eq_none fun id hid => ht ?_
        have hsame := (hinsert p.id).symm.trans hid
        rw [if_pos rfl, Option.some.injEq, Deadline.mk.injEq] at hsame
        rw [hsame.1]
      · rw [noted_forget_of_ne _ hq]
        exact noted_deadline_congr ((hinsert q).trans (if_neg hq)) link
    | tick => rfl

/-- A packet has a timer set that is due after the instant before which it may not fire, or nothing
happens. -/
theorem armDeadline_cases (p : SecuredPacket) (notBefore : Millis) :
    n.armDeadline p notBefore = n ∨ ∃ due, notBefore < due ∧
      Armed (.deadline p.link p.id) due (n.clock.forget p.id) (n.armDeadline p notBefore).clock := by
  unfold armDeadline
  split
  · exact .inl rfl
  · rename_i deadline _
    have hle : notBefore ≤ if notBefore ≤ deadline then deadline else notBefore := by
      split
      · assumption
      · exact UInt64.le_refl _
    simp only
    generalize (if notBefore ≤ deadline then deadline else notBefore) = last at hle
    split
    · exact .inl rfl
    · rename_i hne
      refine .inr ⟨last + 1, ?_, n.armed_insertDeadline p (last + 1)⟩
      have hmax := last.toNat_lt
      have hlast : (0xFFFFFFFFFFFFFFFF : UInt64).toNat = 18446744073709551615 := rfl
      have hone : (1 : UInt64).toNat = 1 := rfl
      rw [UInt64.le_iff_toNat_le] at hle
      rw [← UInt64.toNat_inj, hlast] at hne
      rw [UInt64.lt_iff_toNat_lt, UInt64.toNat_add, hone]
      omega

/-- A timer that ends the wait of a packet sets one other at most, for a later instant. -/
theorem expireWaiting_cases (link : LinkKey) (packet : PacketId) (now : Millis) :
    (n.expireWaiting link packet now).clock = n.clock ∨
    (n.expireWaiting link packet now).clock = n.clock.forget packet ∨
    ∃ (p : SecuredPacket) (due : Millis), now < due ∧
      Armed (.deadline p.link p.id) due ((n.clock.forget packet).forget p.id)
        (n.expireWaiting link packet now).clock := by
  have herased := n.clock_eraseDeadline packet
  unfold expireWaiting
  split
  · refine .inr ?_
    simp only
    split
    · exact .inl herased
    · split
      · exact .inl herased
      · split
        · exact .inl herased
        · rename_i p _ _ _
          rcases { n with deadlines := n.deadlines.erase packet }.armDeadline_cases p now with
            hsame | ⟨due, hlt, harm⟩
          · exact .inl ((congrArg clock hsame).trans herased)
          · exact .inr ⟨p, due, hlt, herased ▸ harm⟩
  · exact .inl rfl

/-- The timer is set for the first instant at which the packet is too old, provided that it may fire
then. -/
theorem armDeadline_of_tooOldAt? {p : SecuredPacket} {due : Millis} (h : p.tooOldAt? = some due)
    {notBefore : Millis} (hlt : notBefore < due) :
    n.armDeadline p notBefore =
      { (n.schedule due (.deadline p.link p.id)).2 with
        deadlines := n.deadlines.insert p.id ⟨p.link, ⟨n.agenda.nextId⟩⟩ } := by
  obtain ⟨deadline, hd, hne, rfl, hnext⟩ := SecuredPacket.deadline_of_tooOldAt? h
  have hle : notBefore ≤ deadline := by
    rw [UInt64.lt_iff_toNat_lt, hnext] at hlt
    exact UInt64.le_iff_toNat_le.2 (Nat.le_of_lt_succ hlt)
  unfold armDeadline
  simp only [hd, if_pos hle, if_neg hne]
  rfl

/-- A packet that waits has its timer set for the first instant at which it is too old. -/
theorem armed_armDeadline {p : SecuredPacket} {due : Millis} (h : p.tooOldAt? = some due)
    {notBefore : Millis} (hlt : notBefore < due) :
    Armed (.deadline p.link p.id) due (n.clock.forget p.id) (n.armDeadline p notBefore).clock := by
  rw [n.armDeadline_of_tooOldAt? h hlt]
  exact n.armed_insertDeadline p due

theorem waits_armDeadline (p : SecuredPacket) {notBefore : Millis}
    (hlt : ∀ due, p.tooOldAt? = some due → notBefore < due) :
    Waits p n.clock (n.armDeadline p notBefore).clock := by
  cases hp : p.tooOldAt? with
  | none => exact (n.armDeadline_of_none hp notBefore).symm ▸ .never hp
  | some due => exact .until hp (n.armed_armDeadline hp (hlt due hp))

/-- Packets leave a queue from its front, each with its timer. -/
theorem disarmed_sendWaiting (now : Millis) (ps : List SecuredPacket) :
    ∃ gone, ps = gone ++ (n.sendWaiting now ps).2.1 ∧
      Disarmed (fun t => ∃ p ∈ gone, ∃ link, t = .deadline link p.id) n.clock
        (n.sendWaiting now ps).2.2.clock := by
  have hnone : ∀ c : Clock,
      Disarmed (fun t => ∃ p ∈ ([] : List SecuredPacket), ∃ link, t = .deadline link p.id) c c :=
    fun c => (Disarmed.refl c).congr fun t => by simp
  induction ps generalizing n with
  | nil => exact ⟨[], rfl, hnone _⟩
  | cons p ps ih =>
    have hrest : ∀ m : Node, m.clock = (n.disarmDeadline p.id).clock →
        ∃ gone, p :: ps = gone ++ (m.sendWaiting now ps).2.1 ∧
          Disarmed (fun t => ∃ p ∈ gone, ∃ link, t = .deadline link p.id) n.clock
            (m.sendWaiting now ps).2.2.clock := by
      intro m hm
      obtain ⟨gone, hgone, hlater⟩ := ih m
      rw [hm] at hlater
      refine ⟨p :: gone, congrArg _ hgone, ?_⟩
      refine ((n.disarmed_disarmDeadline p.id).trans hlater).congr fun t => ?_
      rw [List.exists_mem_cons_iff]
    have hsubmit : ((n.submit (.secured p)).2.disarmDeadline p.id).clock =
        (n.disarmDeadline p.id).clock := by
      unfold disarmDeadline
      simp only
      rw [clock_cancelTimer, clock_cancelTimer]
      rfl
    rw [sendWaiting]
    split
    · exact hrest _ rfl
    · split
      · rename_i m hm
        rw [hm] at hsubmit
        exact hrest _ hsubmit
      · rename_i m hm
        rw [hm] at hsubmit
        split
        · have hsame : m.clock = n.clock := (congrArg (·.2.clock) hm).symm
          exact ⟨[], rfl, hsame ▸ hnone _⟩
        · exact hrest _ hsubmit

/-! ## Links that go down -/

/-- What is left of the timers once those of a link are taken out with their notes. -/
theorem disarmed_dropLink {link : LinkKey} {c : Charger} {a : Agenda Timer}
    (hc : ∀ key, c.followUp? key = if key = link then none else n.charger.followUp? key)
    (hcount : a.nextId = n.agenda.nextId)
    (ha : ∀ e, e ∈ a.entries ↔ e ∈ n.agenda.entries ∧ n.charger.followUp? link ≠ some e.id) :
    Disarmed (Timer.HangsOn link) n.clock
      { n with
        charger := c
        agenda := (Deadlines.timersOf n.deadlines link).foldl (fun a t => a.cancel t) a
        deadlines := Deadlines.dropLink n.deadlines link }.clock := by
  refine ⟨rfl, (Agenda.nextId_foldl_cancel _ _).trans hcount, ?_, ?_, ?_⟩
  · intro e
    refine (Agenda.mem_foldl_cancel _ _ e).trans ?_
    rw [ha, Deadlines.mem_timersOf, and_assoc]
    refine and_congr_right fun _ => ?_
    constructor
    · rintro ⟨hround, hpacket⟩ t (rfl | ⟨packet, rfl⟩)
      · exact hround
      · exact fun h => hpacket ⟨packet, noted_deadline_eq_some.1 h⟩
    · intro h
      refine ⟨h _ (.inl rfl), ?_⟩
      rintro ⟨packet, hp⟩
      exact h _ (.inr ⟨packet, rfl⟩) (noted_deadline_eq_some.2 hp)
  · rintro t (rfl | ⟨packet, rfl⟩)
    · exact (hc link).trans (if_pos rfl)
    · refine noted_deadline_eq_none fun id hid => ?_
      rw [Deadlines.find?_dropLink, Option.filter_eq_some_iff] at hid
      exact of_decide_eq_true hid.2 rfl
  · intro t ht
    cases t with
    | chargingRound key =>
      refine (hc key).trans (if_neg ?_)
      rintro rfl
      exact ht (.inl rfl)
    | deadline key packet =>
      have hne : key ≠ link := by
        rintro rfl
        exact ht (.inr ⟨packet, rfl⟩)
      refine Option.ext fun id => noted_deadline_eq_some.trans ?_
      rw [Deadlines.find?_dropLink, Option.filter_eq_some_iff]
      refine (and_iff_left ?_).trans noted_deadline_eq_some.symm
      exact decide_eq_true hne
    | tick => rfl

/-- What is torn down leaves the node its number. -/
theorem id_teardown (peer : NodeId) : (n.teardown peer).2.id = n.id :=
  congrArg Settings.id (n.lowered_teardown peer).settings

/-- All timers of a link go with it. -/
theorem disarmed_teardown (peer : NodeId) :
    Disarmed (Timer.HangsOn (n.linkTo peer)) n.clock (n.teardown peer).2.clock := by
  have hdrop := fun a => n.disarmed_dropLink (a := a)
    fun key => n.charger.followUp?_erase (n.linkTo peer) key
  unfold teardown
  simp only
  cases hf : (n.charger.cancel (n.linkTo peer)).2.bind (·.followUp) with
  | none =>
    refine hdrop n.agenda rfl fun e => ⟨fun he => ⟨he, ?_⟩, And.left⟩
    rw [show n.charger.followUp? (n.linkTo peer) = none from hf]
    nofun
  | some id =>
    refine hdrop (n.agenda.cancel id) rfl fun e => ?_
    rw [show n.charger.followUp? (n.linkTo peer) = some id from hf, Agenda.mem_cancel, ne_eq, ne_eq,
      Option.some.injEq, eq_comm (a := id)]

theorem linkTo_teardown (peer : NodeId) : (n.teardown peer).2.linkTo = n.linkTo := by
  funext q
  rw [linkTo, linkTo, n.id_teardown]

theorem teardownAll_cons (peer : NodeId) (keys : List LinkKey) :
    n.teardownAll (n.linkTo peer :: keys) = (n.teardown peer).2.teardownAll keys := by
  have hother : (n.linkTo peer).other n.id = some peer := LinkKey.other_join n.id peer
  unfold teardownAll
  rw [List.foldl_cons]
  simp only [hother]

/-- All timers of some links go with them. -/
theorem disarmed_teardownAll {keys : List LinkKey} (hkeys : ∀ k ∈ keys, ∃ peer, k = n.linkTo peer) :
    Disarmed (fun t => ∃ k ∈ keys, t.HangsOn k) n.clock (n.teardownAll keys).clock := by
  induction keys generalizing n with
  | nil => exact (Disarmed.refl _).congr fun t => by simp
  | cons k ks ih =>
    obtain ⟨peer, rfl⟩ := hkeys k List.mem_cons_self
    rw [teardownAll_cons]
    have hlater := ih (n.teardown peer).2 fun k hk => by
      rw [n.linkTo_teardown peer]
      exact hkeys k (List.mem_cons_of_mem _ hk)
    refine ((n.disarmed_teardown peer).trans hlater).congr fun t => ?_
    rw [List.exists_mem_cons_iff]

end Node

end KeyReserve
