import KeyReserve.Proofs.Lifecycle
import Mathlib.Data.List.Induction

/-!
# Runs

Each call either moves packets and key material, or brings links up, or takes links down, or reads
the record. Every node that calls lead to is therefore configured as it was made, keeps its queues
in order, and has only links of its own.

A link that is up has come up in some call and has been up ever since. What the node has done with
packets on that link since then is its tally.

## Main definitions

* `Node.Sound`: what holds of every node that calls lead to;
* `Node.Effect`: what a call can do to the stock;
* `Node.UpSince`: the call in which a link came up for the last time;
* `Tally`: what has become of the packets on one link between two stocks.

## Main results

* `Node.Sound.effect`, `Node.Reachable.sound`;
* `Node.exists_upSince`: each link that is up has come up in some call;
* `Node.Sound.tally_run`: the tally of a link over calls during which it is up;
* `Node.exists_books`: the books of each link that is up.
-/

namespace KeyReserve

/-! ## What holds of every node -/

/-- What holds of every node that calls lead to. -/
structure Node.Sound (n : Node) : Prop where
  configured : n.Configured
  orderly : n.stock.Orderly
  /-- Each link that is up joins the node to a peer. -/
  joined : ∀ key, (n.stock.accounts key).isSome → ∃ peer, key = n.linkTo peer

/-- What a call can do to the stock. -/
inductive Node.Effect (n : Node) (c : Call) : Prop where
  | moved (expired : List SecuredPacket) (handed : List HandOver)
      (h : Flow n.stock (n.apply c).stock (n.paid c) expired handed)
  | raised (hp : n.paid c = []) (h : Raised n.stock (n.apply c).stock (c.Offers n))
  | lowered (hp : n.paid c = []) (h : Lowered n.stock (n.apply c).stock)
  | drained (hp : n.paid c = []) (h : (n.apply c).stock = { n.stock with expiries := [] })

theorem Call.Offers.joins {c : Call} {n : Node} {key : LinkKey} {bounds : Bounds}
    (h : c.Offers n key bounds) : ∃ peer, key = n.linkTo peer := by
  cases c with
  | start now =>
    obtain ⟨l, -, hk, -⟩ := h
    exact ⟨l.peer, hk⟩
  | establish peer b now => exact ⟨peer, h.1⟩
  | _ => cases h

theorem Stock.Orderly.of_raised {s t : Stock} {offered : LinkKey → Bounds → Prop} (ho : s.Orderly)
    (h : Raised s t offered) : t.Orderly where
  nextHop hop p hp := ho.nextHop hop p (h.queue ▸ hp)
  proper hop p hp := (proper_congr h.settings p).2 (ho.proper hop p (h.queue ▸ hp))
  up hop p hp := by
    have hup := ho.up hop p (h.queue ▸ hp)
    rcases h.accounts p.link with heq | ⟨hdown, -⟩
    · rw [heq]
      exact hup
    · rw [hdown] at hup
      cases hup

theorem Stock.Orderly.of_lowered {s t : Stock} (ho : s.Orderly) (h : Lowered s t) :
    t.Orderly := by
  have hkept : ∀ hop, ∀ p ∈ t.queue hop, p ∈ s.queue hop ∧
      t.accounts (.join s.settings.id hop) = s.accounts (.join s.settings.id hop) := by
    intro hop p hp
    rcases h.queue hop with ⟨hq, ha⟩ | ⟨hq, -⟩
    · exact ⟨hq ▸ hp, ha⟩
    · rw [hq] at hp
      cases hp
  refine ⟨fun hop p hp => ho.nextHop hop p (hkept hop p hp).1, ?_, ?_⟩
  · intro hop p hp
    rw [proper_congr h.settings]
    exact ho.proper hop p (hkept hop p hp).1
  · intro hop p hp
    obtain ⟨hmem, ha⟩ := hkept hop p hp
    have hlink : p.link = .join s.settings.id hop := by
      rw [(ho.proper hop p hmem).link, ho.nextHop hop p hmem]
    rw [hlink, ha, ← hlink]
    exact ho.up hop p hmem

namespace Node

variable {n : Node}

theorem Sound.effect (h : n.Sound) (c : Call) : n.Effect c := by
  cases hc : c.flows with
  | true =>
    obtain ⟨expired, handed, hf⟩ := n.flow_apply h.configured h.orderly hc
    exact .moved expired handed hf
  | false =>
    cases c with
    | start now => exact .raised rfl (n.raised_start now)
    | establish peer bounds now => exact .raised rfl (n.raised_establish peer bounds now)
    | teardown peer => exact .lowered rfl (n.lowered_teardown peer)
    | shutdown => exact .lowered rfl n.lowered_shutdown
    | drainEvents => exact .drained rfl rfl
    | _ => cases hc

/-- No call changes what a node has been configured with. -/
theorem Effect.settings {c : Call} (h : n.Effect c) : (n.apply c).settings = n.settings := by
  cases h with
  | moved _ _ h => exact h.settings
  | raised _ h => exact h.settings
  | lowered _ h => exact h.settings
  | drained _ h => exact congrArg Stock.settings h

theorem Effect.id {c : Call} (h : n.Effect c) : (n.apply c).id = n.id :=
  congrArg Settings.id h.settings

theorem Sound.apply (h : n.Sound) (c : Call) : (n.apply c).Sound := by
  have heffect := h.effect c
  have hid := heffect.id
  have hconfig : (n.apply c).config = n.config := congrArg Settings.config heffect.settings
  have hproper := Stock.proper_congr (s := n.stock) (t := (n.apply c).stock) heffect.settings
  refine ⟨?_, ?_, ?_⟩
  · show (n.apply c).settings = _
    rw [heffect.settings, hid, hconfig]
    exact h.configured
  · cases heffect with
    | moved _ _ hf => exact h.orderly.of_flow hf
    | raised _ hr => exact h.orderly.of_raised hr
    | lowered _ hl => exact h.orderly.of_lowered hl
    | drained _ hd =>
      rw [hd] at hproper ⊢
      exact ⟨h.orderly.nextHop, fun hop p hp => (hproper p).2 (h.orderly.proper hop p hp),
        h.orderly.up⟩
  · intro key hup
    have hkey : ∃ peer, key = n.linkTo peer := by
      cases heffect with
      | moved _ _ hf => exact h.joined key (hf.up key ▸ hup)
      | raised _ hr =>
        rcases hr.accounts key with heq | ⟨-, _, _, _, ho, -⟩
        · exact h.joined key (heq ▸ hup)
        · exact ho.joins
      | lowered _ hl =>
        rcases hl.accounts key with heq | hdown
        · exact h.joined key (heq ▸ hup)
        · rw [hdown] at hup
          cases hup
      | drained _ hd =>
        rw [hd] at hup
        exact h.joined key hup
    obtain ⟨peer, rfl⟩ := hkey
    exact ⟨peer, by rw [linkTo, linkTo, hid]⟩

theorem Sound.run (h : n.Sound) (cs : List Call) : (n.run cs).Sound := by
  induction cs generalizing n with
  | nil => exact h
  | cons c cs ih => exact ih (h.apply c)

theorem sound_create {config : Config} {t : Transport} (h : create config t = .ok n) : n.Sound := by
  have hsettings := settings_create h
  unfold create at h
  split at h
  · cases h
  · cases h
    exact ⟨hsettings, ⟨fun _ _ hp => absurd hp List.not_mem_nil,
      fun _ _ hp => absurd hp List.not_mem_nil, fun _ _ hp => absurd hp List.not_mem_nil⟩,
      fun _ hup => absurd hup Bool.false_ne_true⟩

theorem Reachable.sound (h : n.Reachable) : n.Sound := by
  induction h with
  | created h => exact sound_create h
  | called _ c ih => exact ih.apply c

end Node

/-! ## The life of a link -/

/-- The link under a key was down before a call, and has been up ever since. -/
structure Node.UpSince (n : Node) (key : LinkKey) (before : List Call) (c : Call)
    (after : List Call) : Prop where
  down : (n.run before).links.contains key = false
  up : ∀ calls, calls <+: after → (((n.run before).apply c).run calls).links.contains key = true

namespace Node

variable {n : Node} {key : LinkKey}

theorem isSome_accounts (n : Node) (key : LinkKey) :
    (n.stock.accounts key).isSome = n.links.contains key :=
  Option.isSome_map

/-- A link comes up in a call that offers bounds for it, and has nothing counted then. -/
theorem Sound.raises (h : n.Sound) {c : Call} (hdown : n.links.contains key = false)
    (hup : (n.apply c).links.contains key = true) :
    n.paid c = [] ∧ Raised n.stock (n.apply c).stock (c.Offers n) ∧
      ∃ bounds buffer now, c.Offers n key bounds ∧ KeyBuffer.ofBounds bounds = .ok buffer ∧
        (n.apply c).stock.accounts key = some ⟨buffer, {}, now⟩ := by
  rw [← isSome_accounts] at hdown hup
  cases h.effect c with
  | moved _ _ hf => rw [hf.up, hdown] at hup; cases hup
  | raised hp hr =>
    rcases hr.accounts key with heq | ⟨-, hnew⟩
    · rw [heq, hdown] at hup; cases hup
    · exact ⟨hp, hr, hnew⟩
  | lowered _ hl =>
    rcases hl.accounts key with heq | hnone
    · rw [heq, hdown] at hup; cases hup
    · rw [hnone] at hup; cases hup
  | drained _ hd =>
    rw [hd] at hup
    exact absurd (hdown.symm.trans hup) Bool.false_ne_true

/-- Each link that is up at the end of a run from a node without links has come up in some call. -/
theorem exists_upSince (hdown : n.links.contains key = false)
    {calls : List Call} (hup : (n.run calls).links.contains key = true) :
    ∃ before c after, calls = before ++ c :: after ∧ n.UpSince key before c after := by
  -- look for the last call before which the link was down
  induction calls using List.reverseRecOn with
  | nil => rw [Node.run, List.foldl_nil, hdown] at hup; cases hup
  | append_singleton cs c ih =>
    rw [run_concat] at hup
    cases hcs : (n.run cs).links.contains key with
    | false =>
      refine ⟨cs, c, [], rfl, hcs, ?_⟩
      intro ds hds
      rw [List.prefix_nil.1 hds]
      exact hup
    | true =>
      obtain ⟨before, d, after, rfl, hs⟩ := ih hcs
      refine ⟨before, d, after ++ [c], ?_, hs.down, ?_⟩
      · rw [List.append_assoc, List.cons_append]
      · intro ds hds
        rcases List.prefix_concat_iff.1 hds with heq | hpre
        · rw [run_append] at hup
          rw [heq, run_concat]
          exact hup
        · exact hs.up ds hpre

end Node

/-! ## What has become of the packets on a link -/

/-- What has become of the packets on one link, which is up, between two stocks. Other links may
have come up or gone down meanwhile. -/
structure Tally (key : LinkKey) (s s' : Stock) (paid expired : List SecuredPacket)
    (handed : List HandOver) : Prop where
  handOvers : s'.handOvers = s.handOvers ++ handed
  booked : ∃ l l', s.accounts key = some l ∧ s'.accounts key = some l' ∧
    l.Booked l' (paid.filter (·.link = key)) (expired.filter (·.link = key))
  balance : ∀ p, p.link = key →
    (settled handed).count p + expired.count p + (s'.queue p.nextHop).count p =
      paid.count p + (s.queue p.nextHop).count p
  /-- Packets expire past their bounds only. -/
  overdue : ∀ p ∈ expired, ∃ now e, p.expiry? now = some e

section

variable {key : LinkKey} {s t u : Stock} {p q e f : List SecuredPacket} {h k : List HandOver}

/-- Nothing has become of the packets on a link whose account and queue are as they were. -/
theorem Tally.still (hup : (s.accounts key).isSome) (hh : t.handOvers = s.handOvers)
    (ha : t.accounts key = s.accounts key)
    (hq : ∀ x : SecuredPacket, x.link = key →
      (t.queue x.nextHop).count x = (s.queue x.nextHop).count x) :
    Tally key s t [] [] [] := by
  obtain ⟨l, hl⟩ := Option.isSome_iff_exists.1 hup
  refine ⟨?_, ⟨l, l, hl, ha ▸ hl, .refl l⟩, ?_, fun x hx => absurd hx List.not_mem_nil⟩
  · rw [hh, List.append_nil]
  · intro x hx
    rw [hq x hx]
    rfl

theorem Tally.trans (hf : Tally key s t p e h) (hg : Tally key t u q f k) :
    Tally key s u (p ++ q) (e ++ f) (h ++ k) where
  handOvers := by rw [hg.handOvers, hf.handOvers, List.append_assoc]
  booked := by
    obtain ⟨l, m, hl, hm, hlm⟩ := hf.booked
    obtain ⟨m', l', hm', hl', hml⟩ := hg.booked
    cases hm.symm.trans hm'
    rw [List.filter_append, List.filter_append]
    exact ⟨l, l', hl, hl', hlm.trans hml⟩
  balance x hx := by
    have h1 := hf.balance x hx
    have h2 := hg.balance x hx
    simp only [settled, List.filter_append, List.map_append, List.count_append] at h1 h2 ⊢
    omega
  overdue x hx := by
    rcases List.mem_append.1 hx with hx | hx
    · exact hf.overdue x hx
    · exact hg.overdue x hx

theorem Flow.tally (hf : Flow s t p e h) (hup : (s.accounts key).isSome) : Tally key s t p e h := by
  obtain ⟨l, hl⟩ := Option.isSome_iff_exists.1 hup
  obtain ⟨l', hl'⟩ := Option.isSome_iff_exists.1 (hf.up key ▸ hup)
  obtain ⟨reports, -, hreports⟩ := hf.expiries
  exact ⟨hf.handOvers, ⟨l, l', hl, hl', hf.booked key l l' hl hl'⟩, fun x _ => hf.balance x,
    fun x hx => overdue_of_reports hreports hx⟩

theorem Raised.tally {offered : LinkKey → Bounds → Prop} (hr : Raised s t offered)
    (hup : (s.accounts key).isSome) : Tally key s t [] [] [] := by
  refine .still hup hr.handOvers ?_ fun x _ => by rw [hr.queue]
  rcases hr.accounts key with heq | ⟨hdown, -⟩
  · exact heq
  · rw [hdown] at hup
    cases hup

theorem Lowered.tally (hl : Lowered s t) (ho : s.Orderly) (hup : (t.accounts key).isSome) :
    Tally key s t [] [] [] := by
  have ha : t.accounts key = s.accounts key := by
    rcases hl.accounts key with heq | hdown
    · exact heq
    · rw [hdown] at hup
      cases hup
  refine .still (ha ▸ hup) hl.handOvers ha fun x hx => ?_
  rcases hl.queue x.nextHop with ⟨hq, -⟩ | ⟨hq, hdown⟩
  · rw [hq]
  · rw [hq, List.count_nil, eq_comm, List.count_eq_zero]
    intro hmem
    rw [← (ho.proper _ x hmem).link, hx] at hdown
    rw [hdown] at hup
    cases hup

end

namespace Node

variable {n : Node} {key : LinkKey}

theorem Sound.tally (h : n.Sound) {c : Call} (hbefore : n.links.contains key = true)
    (hafter : (n.apply c).links.contains key = true) :
    ∃ expired handed, Tally key n.stock (n.apply c).stock (n.paid c) expired handed := by
  rw [← isSome_accounts] at hbefore hafter
  cases h.effect c with
  | moved expired handed hf => exact ⟨expired, handed, hf.tally hbefore⟩
  | raised hp hr => exact ⟨[], [], hp ▸ hr.tally hbefore⟩
  | lowered hp hl => exact ⟨[], [], hp ▸ hl.tally h.orderly hafter⟩
  | drained hp hd =>
    refine ⟨[], [], ?_⟩
    rw [hp, hd]
    exact .still hbefore rfl rfl fun _ _ => rfl

theorem Sound.tally_run (h : n.Sound) {cs : List Call}
    (hup : ∀ ds, ds <+: cs → (n.run ds).links.contains key = true) :
    ∃ expired handed, Tally key n.stock (n.run cs).stock (n.paidIn cs) expired handed := by
  induction cs generalizing n with
  | nil =>
    refine ⟨[], [], .still ?_ rfl rfl fun _ _ => rfl⟩
    rw [isSome_accounts]
    exact hup [] List.nil_prefix
  | cons c cs ih =>
    have hnow := hup [] List.nil_prefix
    have hnext := hup [c] ⟨cs, rfl⟩
    obtain ⟨e, k, step⟩ := h.tally hnow hnext
    obtain ⟨f, l, later⟩ := ih (h.apply c) fun ds hds =>
      hup (c :: ds) (List.cons_prefix_cons.2 ⟨rfl, hds⟩)
    exact ⟨e ++ f, k ++ l, step.trans later⟩

/-- The books of a link that has come up in a call, with bounds that the call offered: what has
been counted on the link since then, and what has become of its packets. -/
structure Books (n : Node) (key : LinkKey) (before : List Call) (c : Call) (after : List Call)
    (bounds : Bounds) (expired : List SecuredPacket) (handed : List HandOver) : Prop where
  offers : c.Offers (n.run before) key bounds
  booked : ∃ buffer now l, KeyBuffer.ofBounds bounds = .ok buffer ∧
    (n.run (before ++ c :: after)).stock.accounts key = some l ∧
    Link.Booked ⟨buffer, {}, now⟩ l ((((n.run before).apply c).paidIn after).filter (·.link = key))
      (expired.filter (·.link = key))
  handOvers : (n.run (before ++ c :: after)).handOvers = (n.run before).handOvers ++ handed
  balance : ∀ p, p.link = key → (settled handed).count p + expired.count p +
    ((n.run (before ++ c :: after)).queue p.nextHop).count p =
      (((n.run before).apply c).paidIn after).count p
  overdue : ∀ p ∈ expired, ∃ now e, p.expiry? now = some e

/-- A link comes up with a blank account and an empty queue, so that its tally makes its books. -/
theorem Sound.books (h : n.Sound) {before after : List Call} {c : Call}
    (hs : n.UpSince key before c after) :
    ∃ bounds expired handed, n.Books key before c after bounds expired handed := by
  have hb := h.run before
  obtain ⟨-, hr, bounds, buffer, now, ho, hbounds, hblank⟩ :=
    hb.raises hs.down (hs.up [] List.nil_prefix)
  obtain ⟨expired, handed, ht⟩ := (hb.apply c).tally_run hs.up
  have hend : n.run (before ++ c :: after) = ((n.run before).apply c).run after :=
    n.run_append before (c :: after)
  refine ⟨bounds, expired, handed, ho, ?_, ?_, ?_, ht.overdue⟩
  · obtain ⟨l, l', hl, hl', hbooked⟩ := ht.booked
    cases hblank.symm.trans hl
    rw [hend]
    exact ⟨buffer, now, l', hbounds, hl', hbooked⟩
  · have hh : ((n.run before).apply c).handOvers = (n.run before).handOvers := hr.handOvers
    rw [hend, ← hh]
    exact ht.handOvers
  · intro p hp
    have hempty : (((n.run before).apply c).queue p.nextHop).count p = 0 := by
      have hq : ((n.run before).apply c).queue = (n.run before).queue := hr.queue
      rw [hq, List.count_eq_zero]
      intro hmem
      have hup := hb.orderly.up _ p hmem
      rw [isSome_accounts, hp, hs.down] at hup
      cases hup
    have hbalance := ht.balance p hp
    rw [hend]
    exact hbalance.trans (by rw [show (((n.run before).apply c).stock.queue p.nextHop).count p = 0
      from hempty, Nat.add_zero])

/-- On a node made from a configuration and driven by calls, each link that is up has come up in
one of them and has its books from then on. -/
theorem exists_books {config : Config} {t : Transport} (hn : create config t = .ok n)
    {calls : List Call} {l : Link} (hl : (n.run calls).links.find? key = some l) :
    ∃ before c after bounds expired handed, calls = before ++ c :: after ∧
      n.UpSince key before c after ∧ n.Books key before c after bounds expired handed := by
  have hdown : n.links.contains key = false := by
    unfold create at hn
    split at hn <;> cases hn
    rfl
  have hup : (n.run calls).links.contains key = true := by
    rw [Table.contains_eq_isSome, hl, Option.isSome_some]
  obtain ⟨before, c, after, rfl, hs⟩ := exists_upSince hdown hup
  obtain ⟨bounds, expired, handed, hbooks⟩ := (sound_create hn).books hs
  exact ⟨before, c, after, bounds, expired, handed, rfl, hs, hbooks⟩

end Node

/-! ## A small run -/

/-- A node with one link, which starts below its threshold. -/
def Config.pair : Config :=
  { Config.forNode ⟨1⟩ with
    routing := { RoutingSettings.standard with securedMin := 10 }
    links := [⟨⟨2⟩, some ⟨10, 40, 100, 30⟩⟩] }

/-- The link comes up and is charged, and a packet is sent over it. -/
def Call.pairRun : List Call :=
  [.start 0, .chargeDelivered ⟨2⟩ 65 100, .sendSecured ⟨⟨7⟩, ⟨2⟩, 20⟩ none 100]

end KeyReserve
