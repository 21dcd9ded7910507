import KeyReserve.Proofs.PacketTimers
import KeyReserve.Proofs.Run

/-!
# The first instant of expiry

That a packet is too old is told in two ways. The check at its release compares its age, cut at
zero, with the bound; its timer is set by the sum of both, cut at the last instant there is. The two
agree at every instant, also where the sum comes to that instant or would go beyond it: no packet is
refused before its timer is due, and the timer of a packet that is never refused is not set.

## Main definitions

* `DelayTag.FirstExpiry`: the first instant at which a packet is too old;
* `Node.TimerSet`: the timer of a packet is set, and nothing else happens.

## Main results

* `DelayTag.isExpired_iff_deadline?`: a packet is too old once its deadline has passed;
* `Node.armDeadline_firstExpiry`: the timer of a packet is due at the first instant of its expiry.
-/

namespace KeyReserve

namespace DelayTag

/-- The packet is too old from this instant on, and not before. -/
structure FirstExpiry (t : DelayTag) (due : Millis) : Prop where
  expired : t.isExpired due = true
  least : ∀ now, t.isExpired now = true → due ≤ now

/-- The deadline is the sum of both times, or the last instant if that is earlier; no instant is
past that one. -/
theorem isExpired_iff_deadline? (t : DelayTag) (now : Millis) :
    t.isExpired now = true ↔ ∃ deadline, t.deadline? = some deadline ∧ deadline < now := by
  have hpos : 0 < t.maxDelay ↔ 0 < t.maxDelay.toNat := UInt64.lt_iff_toNat_lt
  have hsum := UInt64.toNat_addSat t.createdAt t.maxDelay
  have hnow := now.toNat_lt
  rw [UInt64.size] at hsum
  rw [isExpired_iff, ← hpos]
  unfold deadline?
  split
  · rename_i hbound
    simp only [Option.some.injEq, exists_eq_left', UInt64.lt_iff_toNat_lt, hbound, true_and]
    omega
  · rename_i hbound
    simp only [reduceCtorEq, false_and, exists_false, hbound]

end DelayTag

namespace SecuredPacket

variable {p : SecuredPacket} {tag : DelayTag}

/-- A packet is reported exactly when its tag has expired. -/
theorem isSome_expiry?_eq (h : p.delay = some tag) (now : Millis) :
    (p.expiry? now).isSome = tag.isExpired now := by
  rw [expiry?, h]
  cases hexpired : tag.isExpired now <;> simp [hexpired]

theorem firstExpiry_of_tooOldAt? (h : p.delay = some tag) {due : Millis}
    (hdue : p.tooOldAt? = some due) : tag.FirstExpiry due where
  expired := by
    rw [← isSome_expiry?_eq h]
    exact (p.isSome_expiry? due).2 ⟨due, hdue, UInt64.le_refl due⟩
  least now hnow := by
    rw [← isSome_expiry?_eq h] at hnow
    obtain ⟨first, hfirst, hle⟩ := (p.isSome_expiry? now).1 hnow
    cases hdue.symm.trans hfirst
    exact hle

theorem tooOldAt?_of_isExpired (h : p.delay = some tag) {now : Millis}
    (hnow : tag.isExpired now = true) : ∃ due, p.tooOldAt? = some due := by
  rw [← isSome_expiry?_eq h] at hnow
  obtain ⟨due, hdue, -⟩ := (p.isSome_expiry? now).1 hnow
  exact ⟨due, hdue⟩

/-- While the tag has not expired, the first instant at which the packet is too old is to come. -/
theorem lt_of_tooOldAt? (h : p.delay = some tag) {due now : Millis} (hdue : p.tooOldAt? = some due)
    (hnow : tag.isExpired now = false) : now < due := by
  refine UInt64.not_le.1 fun hle => ?_
  have hsome := (p.isSome_expiry? now).2 ⟨due, hdue, hle⟩
  rw [isSome_expiry?_eq h, hnow] at hsome
  cases hsome

end SecuredPacket

theorem DelayTag.isExpired_zero (t : DelayTag) : t.isExpired 0 = false := by
  rw [Bool.eq_false_iff, ne_eq, isExpired_iff, UInt64.toNat_zero]
  omega

namespace Node

/-- A timer that ends the wait of a packet is set for an instant and noted, and nothing else
changes. -/
structure TimerSet (n : Node) (p : SecuredPacket) (due : Millis) (m : Node) : Prop where
  entries : ∀ e, e ∈ m.agenda.entries ↔
    e = ⟨due, ⟨n.agenda.nextId⟩, .deadline p.link p.id⟩ ∨ e ∈ n.agenda.entries
  count : m.agenda.nextId = n.agenda.nextId + 1
  noted : m.deadlines = n.deadlines.insert p.id ⟨p.link, ⟨n.agenda.nextId⟩⟩
  rest : m = { n with agenda := m.agenda, deadlines := m.deadlines }

variable {n m : Node} {p : SecuredPacket} {tag : DelayTag} {due : Millis}

theorem timerSet_armDeadline (h : p.tooOldAt? = some due) {notBefore : Millis}
    (hlt : notBefore < due) : n.TimerSet p due (n.armDeadline p notBefore) := by
  rw [n.armDeadline_of_tooOldAt? h hlt]
  exact ⟨fun _ => Agenda.mem_schedule, rfl, rfl, rfl⟩

/-- The entry of the timer is a new one, and there is no other. -/
theorem TimerSet.due_eq {due' : Millis} (h : n.TimerSet p due m) (h' : n.TimerSet p due' m) :
    due = due' := by
  rcases (h'.entries _).1 ((h.entries _).2 (.inl rfl)) with heq | hold
  · exact congrArg Agenda.Entry.due heq
  · exact absurd (n.agenda.numbered _ hold) (Nat.lt_irrefl _)

theorem TimerSet.ne (h : n.TimerSet p due m) : m ≠ n := by
  rintro rfl
  exact absurd h.count (Nat.ne_of_lt (Nat.lt_succ_self _))

/-- The timer of a packet that carries a bound is due at the first instant at which the check at its
release refuses the packet. It is set if there is such an instant, and else nothing happens. Where
it is set again at an instant at which the packet is not too old yet, it is set for the same
instant. -/
theorem armDeadline_firstExpiry (n : Node) (h : p.delay = some tag) :
    (∀ now, tag.isExpired now = true ↔
      ∃ deadline, tag.deadline? = some deadline ∧ deadline < now) ∧
    (∀ now, (p.expiry? now).isSome = tag.isExpired now) ∧
    ((∃ due, n.TimerSet p due (n.armDeadline p 0)) ↔ ∃ now, tag.isExpired now = true) ∧
    (∀ due, n.TimerSet p due (n.armDeadline p 0) → tag.FirstExpiry due) ∧
    ((∀ now, tag.isExpired now = false) → n.armDeadline p 0 = n) ∧
    ∀ now, tag.isExpired now = false → n.armDeadline p now = n.armDeadline p 0 := by
  refine ⟨tag.isExpired_iff_deadline?, SecuredPacket.isSome_expiry?_eq h, ?_⟩
  cases hp : p.tooOldAt? with
  | none =>
    have hsame := n.armDeadline_of_none hp
    have hnever : ¬ ∃ now, tag.isExpired now = true := by
      rintro ⟨now, hnow⟩
      obtain ⟨due, hdue⟩ := SecuredPacket.tooOldAt?_of_isExpired h hnow
      cases hp.symm.trans hdue
    have hunset : ∀ due, ¬ n.TimerSet p due (n.armDeadline p 0) := fun due hset =>
      hset.ne (hsame 0)
    refine ⟨⟨?_, ?_⟩, ?_, fun _ => hsame 0, fun now _ => (hsame now).trans (hsame 0).symm⟩
    · rintro ⟨due, hset⟩
      exact absurd hset (hunset due)
    · exact fun hnow => absurd hnow hnever
    · exact fun due hset => absurd hset (hunset due)
  | some first =>
    have hfirst := SecuredPacket.firstExpiry_of_tooOldAt? h hp
    have hlt : ∀ now, tag.isExpired now = false → now < first := fun now =>
      SecuredPacket.lt_of_tooOldAt? h hp
    have hset : n.TimerSet p first (n.armDeadline p 0) :=
      timerSet_armDeadline hp (hlt 0 tag.isExpired_zero)
    refine ⟨⟨fun _ => ⟨first, hfirst.expired⟩, fun _ => ⟨first, hset⟩⟩, ?_, ?_, ?_⟩
    · exact fun due hdue => hset.due_eq hdue ▸ hfirst
    · intro hnever
      cases hfirst.expired.symm.trans (hnever first)
    · intro now hnow
      rw [n.armDeadline_of_tooOldAt? hp (hlt now hnow),
        n.armDeadline_of_tooOldAt? hp (hlt 0 tag.isExpired_zero)]

end Node

/-- A packet that is secured one second in, with a bound on its age. -/
def SecuredPacket.aging (maxDelay : Millis) : SecuredPacket :=
  SecuredPacket.tagged ⟨⟨⟨7⟩, ⟨2⟩, 5⟩, .join ⟨1⟩ ⟨2⟩, ⟨2⟩, .oneTimePad, .vmac, 37, none⟩
    maxDelay 1000

/-- The deadline of one packet is the last instant but one, so that its timer is due at the last
instant. That of the other, with a bound one millisecond longer, is the last instant, and the packet
has no timer. -/
theorem Node.armDeadline_firstExpiry_last : ∃ n, create .pair .accepting = .ok n ∧
    n.TimerSet (.aging 18446744073709550614) 18446744073709551615
      (n.armDeadline (.aging 18446744073709550614) 0) ∧
    n.armDeadline (.aging 18446744073709550614) 18446744073709551614 =
      n.armDeadline (.aging 18446744073709550614) 0 ∧
    n.armDeadline (.aging 18446744073709550615) 0 = n := by
  obtain ⟨n, hn⟩ : ∃ n, create .pair .accepting = .ok n := ⟨_, rfl⟩
  obtain ⟨hpast, -, hset, hfirst, -, hagain⟩ :=
    n.armDeadline_firstExpiry (p := .aging 18446744073709550614) rfl
  obtain ⟨hpast', -, -, -, hnever, -⟩ :=
    n.armDeadline_firstExpiry (p := .aging 18446744073709550615) rfl
  refine ⟨n, hn, ?_, hagain _ (by decide), hnever fun now => Bool.eq_false_iff.2 fun hnow => ?_⟩
  · obtain ⟨due, hdue⟩ := hset.2 ⟨18446744073709551615, by decide⟩
    obtain ⟨_, hdeadline, hlt⟩ := (hpast due).1 (hfirst due hdue).expired
    cases hdeadline
    have hlast : due = 18446744073709551615 := by
      have hnext : 18446744073709551614 < due.toNat := UInt64.lt_iff_toNat_lt.1 hlt
      have hmax := due.toNat_lt
      refine UInt64.toNat_inj.1 ?_
      show due.toNat = 18446744073709551615
      omega
    exact hlast ▸ hdue
  · obtain ⟨_, hdeadline, hlt⟩ := (hpast' now).1 hnow
    cases hdeadline
    have hnext : 18446744073709551615 < now.toNat := UInt64.lt_iff_toNat_lt.1 hlt
    have hmax := now.toNat_lt
    omega

end KeyReserve
