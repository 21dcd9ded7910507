import KeyReserve.Proofs.Calls

/-!
# Links that come up and go down

The calls that bring links up give each of them a blank account with the bounds offered for it, and
touch nothing else. Those that take links down take with each the packets that wait for it, and
leave every other link with its packets as it is.

## Main definitions

* `Call.Offers`: the bounds with which a call may bring a link up;
* `Raised`, `Lowered`: what calls of the two kinds do to the stock.

## Main results

* `Node.raised_start`, `Node.raised_establish`, `Node.lowered_teardown`, `Node.lowered_shutdown`.
-/

namespace KeyReserve

/-- The call may bring up the link under a key, with some bounds. -/
def Call.Offers (c : Call) (n : Node) (key : LinkKey) (bounds : Bounds) : Prop :=
  match c with
  | .start _ => ∃ l ∈ n.config.links, key = n.linkTo l.peer ∧ bounds = l.boundsOr n.config.buffer
  | .establish peer b _ => key = n.linkTo peer ∧ bounds = b
  | _ => False

/-- Links have come up, each with bounds that were offered for it and with nothing counted yet. -/
structure Raised (s s' : Stock) (offered : LinkKey → Bounds → Prop) : Prop where
  settings : s'.settings = s.settings
  queue : s'.queue = s.queue
  handOvers : s'.handOvers = s.handOvers
  plainSends : s'.plainSends = s.plainSends
  expiries : s'.expiries = s.expiries
  accounts : ∀ key, s'.accounts key = s.accounts key ∨
    s.accounts key = none ∧ ∃ bounds buffer now, offered key bounds ∧
      KeyBuffer.ofBounds bounds = .ok buffer ∧ s'.accounts key = some ⟨buffer, {}, now⟩

/-- Links have gone down, each with the packets that waited for it. -/
structure Lowered (s s' : Stock) : Prop where
  settings : s'.settings = s.settings
  handOvers : s'.handOvers = s.handOvers
  plainSends : s'.plainSends = s.plainSends
  expiries : s'.expiries = s.expiries
  accounts : ∀ key, s'.accounts key = s.accounts key ∨ s'.accounts key = none
  queue : ∀ peer,
    s'.queue peer = s.queue peer ∧
        s'.accounts (.join s.settings.id peer) = s.accounts (.join s.settings.id peer) ∨
      s'.queue peer = [] ∧ s'.accounts (.join s.settings.id peer) = none

namespace Raised

variable {s t u : Stock} {offered offered' : LinkKey → Bounds → Prop}

theorem refl (s : Stock) : Raised s s offered :=
  ⟨rfl, rfl, rfl, rfl, rfl, fun _ => .inl rfl⟩

theorem mono (h : Raised s t offered) (hle : ∀ key b, offered key b → offered' key b) :
    Raised s t offered' where
  settings := h.settings
  queue := h.queue
  handOvers := h.handOvers
  plainSends := h.plainSends
  expiries := h.expiries
  accounts key := by
    rcases h.accounts key with heq | ⟨hdown, bounds, buffer, now, ho, hb, hup⟩
    · exact .inl heq
    · exact .inr ⟨hdown, bounds, buffer, now, hle key bounds ho, hb, hup⟩

theorem trans (h : Raised s t offered) (h' : Raised t u offered) : Raised s u offered where
  settings := h'.settings.trans h.settings
  queue := h'.queue.trans h.queue
  handOvers := h'.handOvers.trans h.handOvers
  plainSends := h'.plainSends.trans h.plainSends
  expiries := h'.expiries.trans h.expiries
  accounts key := by
    rcases h'.accounts key with heq | ⟨hdown, hnew⟩
    · rw [heq]
      exact h.accounts key
    · rcases h.accounts key with heq | ⟨-, _, _, _, _, _, hup⟩
      · exact .inr ⟨heq ▸ hdown, hnew⟩
      · rw [hdown] at hup
        cases hup

end Raised

namespace Lowered

variable {s t u : Stock}

theorem refl (s : Stock) : Lowered s s :=
  ⟨rfl, rfl, rfl, rfl, fun _ => .inl rfl, fun _ => .inl ⟨rfl, rfl⟩⟩

theorem trans (h : Lowered s t) (h' : Lowered t u) : Lowered s u where
  settings := h'.settings.trans h.settings
  handOvers := h'.handOvers.trans h.handOvers
  plainSends := h'.plainSends.trans h.plainSends
  expiries := h'.expiries.trans h.expiries
  accounts key := by
    rcases h'.accounts key with heq | hdown
    · rw [heq]
      exact h.accounts key
    · exact .inr hdown
  queue peer := by
    have hq' := h'.queue peer
    rw [h.settings] at hq'
    rcases hq' with ⟨hq', ha'⟩ | hdown
    · rw [hq', ha']
      exact h.queue peer
    · exact .inr hdown

end Lowered

/-- The stock once the link to a peer is gone. -/
def Stock.withoutLink (s : Stock) (peer : NodeId) : Stock :=
  { s with
    accounts := fun key => if key = .join s.settings.id peer then none else s.accounts key
    queue := fun hop => if hop = peer then [] else s.queue hop }

theorem Lowered.withoutLink (s : Stock) (peer : NodeId) : Lowered s (s.withoutLink peer) where
  settings := rfl
  handOvers := rfl
  plainSends := rfl
  expiries := rfl
  accounts key := by
    by_cases hk : key = .join s.settings.id peer
    · exact .inr (if_pos hk)
    · exact .inl (if_neg hk)
  queue hop := by
    by_cases hh : hop = peer
    · exact .inr ⟨if_pos hh, if_pos (congrArg _ hh)⟩
    · exact .inl ⟨if_neg hh, if_neg fun hk => hh (LinkKey.join_inj hk)⟩

namespace Node

variable (n : Node)

/-! ## Up -/

theorem raised_bringUp (peer : NodeId) (bounds : Bounds) (now : Millis) :
    Raised n.stock (n.bringUp peer bounds now).2.stock
      fun key b => key = n.linkTo peer ∧ b = bounds := by
  unfold bringUp
  simp only
  cases hlinks : Links.establish n.links (n.linkTo peer) bounds now with
  | error e => exact .refl _
  | ok links =>
    obtain ⟨-, hdown, buffer, hb, rfl⟩ := Links.establish_eq_ok_iff.1 hlinks
    have hlearn := n.protocols.learn_settings (f := fun t => (t.addNeighbor peer 0 now).2)
      fun t => t.learn_settings _ _ _ _
    have hstock := (stock_protocols { n with links := n.links.insert (n.linkTo peer) _ } hlearn).trans
      (n.stock_insert (n.linkTo peer) ⟨buffer, {}, now⟩)
    simp only
    rw [stock_chargeIfLow]
    refine hstock ▸ ⟨rfl, rfl, rfl, rfl, rfl, ?_⟩
    intro key
    by_cases hk : key = n.linkTo peer
    · refine .inr ⟨?_, bounds, buffer, now, ⟨hk, rfl⟩, hb, if_pos hk⟩
      show (n.links.find? key).map Link.account = none
      rw [hk, hdown, Option.map_none]
    · exact .inl (if_neg hk)

theorem raised_bringUpAll (now : Millis) (ls : List LinkSettings) :
    Raised n.stock (n.bringUpAll now ls).2.stock fun key b =>
      ∃ l ∈ ls, key = n.linkTo l.peer ∧ b = l.boundsOr n.config.buffer := by
  induction ls generalizing n with
  | nil => exact .refl _
  | cons l ls ih =>
    have hstep := n.raised_bringUp l.peer (l.boundsOr n.config.buffer) now
    have hlater := ih (n.bringUp l.peer (l.boundsOr n.config.buffer) now).2
    have hid : (n.bringUp l.peer (l.boundsOr n.config.buffer) now).2.id = n.id :=
      congrArg Settings.id hstep.settings
    have hconfig : (n.bringUp l.peer (l.boundsOr n.config.buffer) now).2.config = n.config :=
      congrArg Settings.config hstep.settings
    refine (hstep.mono ?_).trans (hlater.mono ?_)
    · rintro key b ⟨hk, hb⟩
      exact ⟨l, List.mem_cons_self, hk, hb⟩
    · rintro key b ⟨k, hk, hkey, hb⟩
      rw [linkTo, hid] at hkey
      rw [hconfig] at hb
      exact ⟨k, List.mem_cons_of_mem l hk, hkey, hb⟩

theorem raised_start (now : Millis) :
    Raised n.stock (n.start now).2.stock ((Call.start now).Offers n) := by
  unfold start
  split
  · exact .refl _
  · simp only
    rw [stock_scheduleTick]
    exact n.raised_bringUpAll now n.config.links

theorem raised_establish (peer : NodeId) (bounds : Bounds) (now : Millis) :
    Raised n.stock (n.establish peer bounds now).2.stock
      ((Call.establish peer bounds now).Offers n) := by
  have h := n.raised_bringUp peer bounds now
  unfold establish
  split
  · exact .refl _
  · split <;> rename_i hm <;> rw [hm] at h <;> exact h

/-! ## Down -/

/-- What is left of a node once a link is taken out of its parts. -/
theorem stock_dropLink (peer : NodeId) (agenda : Agenda Timer) (deadlines : Deadlines) :
    { n with
      agenda
      deadlines
      queues := n.queues.erase peer
      routing := (n.routing.forgetLink (n.linkTo peer)).2
      protocols := (n.protocols.removeNextHop peer).2
      links := n.links.erase (n.linkTo peer) }.stock = n.stock.withoutLink peer := by
  have hs := n.stock_protocols (n.protocols.removeNextHop_settings peer)
  have hsettings := congrArg Stock.settings hs
  have hqueue : (fun hop => ((n.queues.erase peer).find? hop).getD []) =
      fun hop => if hop = peer then [] else n.queue hop := by
    funext hop
    rw [Table.find?_erase]
    split <;> rfl
  have haccounts : (fun key => ((n.links.erase (n.linkTo peer)).find? key).map Link.account) =
      fun key => if key = n.linkTo peer then none else (n.links.find? key).map Link.account := by
    funext key
    rw [Table.find?_erase]
    split <;> rfl
  simp only [stock, Stock.withoutLink, Stock.mk.injEq]
  exact ⟨hsettings, haccounts, hqueue, rfl, rfl, rfl⟩

theorem stock_teardown (peer : NodeId) : (n.teardown peer).2.stock = n.stock.withoutLink peer := by
  have hcharger : { n with charger := (n.charger.cancel (n.linkTo peer)).1 }.stock = n.stock :=
    n.stock_charger rfl rfl
  obtain ⟨agenda, h⟩ := n.exists_teardown peer
  rw [h]
  exact (stock_dropLink { n with charger := (n.charger.cancel (n.linkTo peer)).1 } peer agenda
    (n.deadlines.dropLink (n.linkTo peer))).trans (congrArg (·.withoutLink peer) hcharger)

theorem lowered_teardown (peer : NodeId) : Lowered n.stock (n.teardown peer).2.stock := by
  rw [stock_teardown]
  exact .withoutLink _ _

theorem lowered_teardownAll (keys : List LinkKey) :
    Lowered n.stock (n.teardownAll keys).stock := by
  unfold teardownAll
  induction keys generalizing n with
  | nil => exact .refl _
  | cons k ks ih =>
    rw [List.foldl_cons]
    refine Lowered.trans ?_ (ih _)
    split
    · exact n.lowered_teardown _
    · exact .refl _

theorem lowered_shutdown : Lowered n.stock n.shutdown.stock := by
  unfold shutdown
  split
  · exact .refl _
  · have h := n.lowered_teardownAll n.links.keys
    have hs := (n.teardownAll n.links.keys).stock_cancelTimer
      (n.teardownAll n.links.keys).tickTimer
    rw [← hs] at h
    exact h

end Node

end KeyReserve
