import KeyReserve.Proofs.SupplyCalls

/-!
# Links that are left idle

A link that is low is left without a session only by a session that has ended: a call that leaves it
so has told of the end of one, or has found it so. A tick does not leave a link as it finds it, and
tells that a session was given up for every link that is idle after it.

## Main definitions

* `Node.Idle`: a link is up and low, and has no session.

## Main results

* `Node.gaveUp_of_tick`: the links that a tick leaves idle;
* `Node.left_idle`: the links that any call leaves idle.
-/

namespace KeyReserve

namespace Node

/-- The link is up with its buffer below the threshold, and has no session. -/
def Idle (n : Node) (key : LinkKey) : Prop :=
  ∃ l, n.links.find? key = some l ∧ l.buffer.isBelowThreshold = true ∧
    n.charger.session? key = none

/-- A session on the link is given up in a call. -/
def GivesUp (n : Node) (c : Call) (key : LinkKey) : Prop :=
  ∃ s delivered reason, Event.chargingAbandoned key s delivered reason ∈ n.told c

/-- A session on the link reaches its end in a call. -/
def Completes (n : Node) (c : Call) (key : LinkKey) : Prop :=
  ∃ s delivered applied, Event.chargingCompleted key s delivered applied ∈ n.told c

/-- The call looks after all links: it is a tick, called or fired by its timer. -/
def Ticks (n : Node) (c : Call) : Prop :=
  ∃ now, c = .tick now ∨ c = .timer .tick now ∧ n.phase = .running

variable {n : Node} {key : LinkKey}

theorem idle_iff : n.Idle key ↔ (n.supply key).Idle := by
  constructor
  · rintro ⟨l, hl, hlow, hs⟩
    exact ⟨l.buffer, congrArg (Option.map Link.buffer) hl, hlow, hs⟩
  · rintro ⟨b, hb, hlow, hs⟩
    obtain ⟨l, hl, rfl⟩ := Option.map_eq_some_iff.1 hb
    exact ⟨l, hl, hlow, hs⟩

theorem GivesUp.of_supply {c : Call} (hc : c ≠ .drainEvents)
    (h : Supply.GaveUp key (n.supply key) ((n.apply c).supply key)) : n.GivesUp c key := by
  obtain ⟨es, s, delivered, reason, hrecord, hmem⟩ := h
  exact ⟨s, delivered, reason, n.mem_told_of_record key hc hrecord hmem⟩

/-- What is idle after a tick has had a session given up in it. -/
theorem gaveUp_of_tick {c : Call} (ht : n.Ticks c) (hi : (n.apply c).Idle key) :
    n.GivesUp c key := by
  rw [idle_iff] at hi
  obtain ⟨now, rfl | ⟨rfl, hrun⟩⟩ := ht
  · exact .of_supply nofun ((n.checked_tick key now).gaveUp hi)
  · have hchecked := checked_tick { n with tickTimer := none } key now
    have hfired : (n.apply (.timer .tick now)).supply key =
        ({ n with tickTimer := none }.tick now).supply key := by
      show (n.onTimer .tick now).supply key = _
      unfold onTimer
      simp only [hrun, if_true]
      exact supply_scheduleTick _ key now
    rw [← hfired] at hchecked
    exact .of_supply nofun (hchecked.gaveUp hi)

/-- On any node, and after any call: a link that is idle was so before the call, or the call has
told of the end of a session on it. After a tick it has told that one was given up. -/
theorem left_idle (n : Node) (c : Call) {key : LinkKey} (hi : (n.apply c).Idle key) :
    (n.Idle key ∨ n.Completes c key ∨ n.GivesUp c key) ∧ (n.Ticks c → n.GivesUp c key) := by
  refine ⟨?_, fun ht => gaveUp_of_tick ht hi⟩
  by_cases hc : c = .drainEvents
  · subst hc
    exact .inl hi
  rw [idle_iff] at hi ⊢
  by_cases hfeeds : c.feeds n key
  · rcases (n.fed key hfeeds).idle_before hi with
      hbefore | ⟨es, s, delivered, applied, hrecord, hmem⟩
    · exact .inl hbefore
    · exact .inr (.inl ⟨s, delivered, applied, n.mem_told_of_record key hc hrecord hmem⟩)
  · rcases (n.served key hc hfeeds).idle_before hi with hbefore | hgave
    · exact .inl hbefore
    · exact .inr (.inr (.of_supply hc hgave))

end Node

/-! ## A transport without key material -/

/-- The transport that takes packets, and has no key material. -/
def Transport.barren : Transport where
  answer
    | _, .charge .. => some (.sendFailed "no key material")
    | _, _ => none

namespace Node

/-- The link comes up low, and the session opened for it is given up at once; so is the one of the
next tick. -/
theorem left_idle_pair : ∃ n, create .pair .barren = .ok n ∧
    ¬ n.Idle (.join ⟨1⟩ ⟨2⟩) ∧ (n.apply (.start 0)).Idle (.join ⟨1⟩ ⟨2⟩) ∧
    (n.Completes (.start 0) (.join ⟨1⟩ ⟨2⟩) ∨ n.GivesUp (.start 0) (.join ⟨1⟩ ⟨2⟩)) ∧
    ((n.apply (.start 0)).apply (.tick 50)).Idle (.join ⟨1⟩ ⟨2⟩) ∧
    (n.apply (.start 0)).GivesUp (.tick 50) (.join ⟨1⟩ ⟨2⟩) := by
  have hlow : ∀ m : Node, (m.links.find? (.join ⟨1⟩ ⟨2⟩)).map (·.buffer.isBelowThreshold) =
      some true → m.charger.session? (.join ⟨1⟩ ⟨2⟩) = none → m.Idle (.join ⟨1⟩ ⟨2⟩) := by
    intro m hl hs
    obtain ⟨l, hl, hlow⟩ := Option.map_eq_some_iff.1 hl
    exact ⟨l, hl, hlow, hs⟩
  obtain ⟨n, hn, hdown, hstarted, hticked⟩ : ∃ n, create .pair .barren = .ok n ∧
      n.links.find? (.join ⟨1⟩ ⟨2⟩) = none ∧
      (n.apply (.start 0)).Idle (.join ⟨1⟩ ⟨2⟩) ∧
      ((n.apply (.start 0)).apply (.tick 50)).Idle (.join ⟨1⟩ ⟨2⟩) :=
    ⟨_, rfl, rfl, hlow _ (by decide +kernel) (by decide +kernel),
      hlow _ (by decide +kernel) (by decide +kernel)⟩
  have hbefore : ¬ n.Idle (.join ⟨1⟩ ⟨2⟩) := by
    rintro ⟨l, hl, -⟩
    cases hdown.symm.trans hl
  exact ⟨n, hn, hbefore, hstarted, (left_idle n (.start 0) hstarted).1.resolve_left hbefore,
    hticked, (left_idle (n.apply (.start 0)) (.tick 50) hticked).2 ⟨50, .inl rfl⟩⟩

end Node

end KeyReserve
