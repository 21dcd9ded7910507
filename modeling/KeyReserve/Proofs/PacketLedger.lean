import KeyReserve.Proofs.KeyLedger

/-!
# The ledger of packets

Each packet that has been paid for is afterwards in exactly one place: the transport has taken it,
the transport has refused it for good, it has expired, or it waits. For a link that is up this is
counted from the call in which it came up; a link that goes down takes along what waits for it.

## Main definitions

* `HandOver.accepted`, `HandOver.refused`: the packets that the transport has taken, and those that
  it has refused for good;
* `Node.LinkBalance`: the places of the packets of a link, and its totals;
* `Node.Debited`: a packet that is handed over in a call has been paid for before.

## Main results

* `Node.packetLedger`: the balance of each link that is up, and how packets are handed over.
-/

namespace KeyReserve

/-! ## Disposal -/

namespace HandOver

/-- The packets that the transport has taken. -/
def accepted (hs : List HandOver) : List SecuredPacket :=
  (hs.filter (·.failure.isNone)).map (·.packet)

/-- The packets that the transport has refused for good. -/
def refused (hs : List HandOver) : List SecuredPacket :=
  (hs.filter fun h => h.failure.isSome && !h.isBusy).map (·.packet)

theorem count_settled (hs : List HandOver) (p : SecuredPacket) :
    (settled hs).count p = (accepted hs).count p + (refused hs).count p := by
  induction hs with
  | nil => rfl
  | cons h hs ih =>
    unfold settled accepted refused at ih ⊢
    rw [List.filter_cons, List.filter_cons, List.filter_cons]
    cases hf : h.failure with
    | none =>
      have hb : h.isBusy = false := by rw [isBusy, hf]; rfl
      simp only [hb, Option.isNone_none, Option.isSome_none, Bool.not_false, Bool.false_and,
        Bool.false_eq_true, if_true, if_false, List.map_cons, List.count_cons]
      omega
    | some e =>
      cases hb : h.isBusy
      · simp only [Option.isNone_some, Option.isSome_some, Bool.not_false, Bool.and_self,
          Bool.false_eq_true, if_true, if_false, List.map_cons, List.count_cons]
        omega
      · simp only [Option.isNone_some, Option.isSome_some, Bool.not_true, Bool.and_false,
          Bool.false_eq_true, if_false]
        exact ih

end HandOver

/-- The packets of one link, in four places, are those that were paid for on it. -/
theorem perm_of_balance {key : LinkKey} {a r e q p : List SecuredPacket}
    (hq : ∀ x ∈ q, x.link = key)
    (hbalance : ∀ x, x.link = key → a.count x + r.count x + e.count x + q.count x = p.count x) :
    (a.filter (·.link = key) ++ q ++ e.filter (·.link = key) ++ r.filter (·.link = key)).Perm
      (p.filter (·.link = key)) := by
  rw [List.perm_iff_count]
  intro x
  simp only [List.count_append]
  by_cases hx : x.link = key
  · have := hbalance x hx
    rw [List.count_filter (by simpa using hx), List.count_filter (by simpa using hx),
      List.count_filter (by simpa using hx), List.count_filter (by simpa using hx)]
    omega
  · have hnone : ∀ l : List SecuredPacket, (l.filter (·.link = key)).count x = 0 := fun l =>
      List.count_eq_zero.2 fun hmem => hx (by simpa using (List.mem_filter.1 hmem).2)
    have hqx : q.count x = 0 := List.count_eq_zero.2 fun hmem => hx (hq x hmem)
    rw [hnone, hnone, hnone, hnone, hqx]

/-! ## Hand-overs -/

namespace Node

variable {n : Node}

/-- The packet of a hand-over in a call has been paid for before: in an earlier call, or in the
same one before it was dispatched. -/
inductive Debited (n : Node) (before : List Call) (c : Call) (p : SecuredPacket) : Prop where
  | earlier (h : p ∈ n.paidIn before)
  | first (packet : Packet) (maxDelay : Option Millis) (now : Millis) (keys : List LinkKey)
      (s : Stock) (hc : c = .sendSecured packet maxDelay now)
      (hpaid : ((n.run before).stock.refuse keys).Paid s p)
      (hsent : s.Dispatched p ((n.run before).sendSecured packet maxDelay now).1
        ((n.run before).apply c).stock)

/-- What a call hands over, and what it leaves of what has been paid for. -/
theorem Sound.handed (h : n.Sound) (c : Call) :
    ∃ handed, (n.apply c).handOvers = n.handOvers ++ handed ∧
      (∀ p, (settled handed).count p + ((n.apply c).queue p.nextHop).count p ≤
        (n.paid c).count p + (n.queue p.nextHop).count p) ∧
      (∀ x ∈ handed, x.packet ∈ n.paid c ∨ x.packet ∈ n.queue x.packet.nextHop) ∧
      ∀ p ∈ n.paid c, n.stock.Proper p := by
  have hidle : n.paid c = [] → (n.apply c).handOvers = n.handOvers →
      (∀ hop, (n.apply c).queue hop = n.queue hop ∨ (n.apply c).queue hop = []) →
      ∃ handed, (n.apply c).handOvers = n.handOvers ++ handed ∧
        (∀ p, (settled handed).count p + ((n.apply c).queue p.nextHop).count p ≤
          (n.paid c).count p + (n.queue p.nextHop).count p) ∧
        (∀ x ∈ handed, x.packet ∈ n.paid c ∨ x.packet ∈ n.queue x.packet.nextHop) ∧
        ∀ p ∈ n.paid c, n.stock.Proper p := by
    intro hp hh hqueue
    rw [hp, hh]
    refine ⟨[], (List.append_nil _).symm, ?_, ?_, ?_⟩
    · intro p
      rcases hqueue p.nextHop with hq | hq <;> rw [hq]
      · exact Nat.le_refl _
      · exact Nat.zero_le _
    · intro x hx
      cases hx
    · intro p hmem
      cases hmem
  cases h.effect c with
  | moved expired handed hf =>
    refine ⟨handed, hf.handOvers, ?_, hf.handed, fun p hp => (hf.proper p hp).1⟩
    intro p
    have hbalance := hf.balance p
    simp only [stock] at hbalance
    omega
  | raised hp hr => exact hidle hp hr.handOvers fun hop => .inl (congrFun hr.queue hop)
  | lowered hp hl => exact hidle hp hl.handOvers fun hop => (hl.queue hop).imp And.left And.left
  | drained hp hd =>
    exact hidle hp (congrArg Stock.handOvers hd) fun hop =>
      .inl (congrFun (congrArg Stock.queue hd) hop)

theorem Sound.settings_run (h : n.Sound) (cs : List Call) : (n.run cs).settings = n.settings := by
  induction cs generalizing n with
  | nil => rfl
  | cons c cs ih => exact (ih (h.apply c)).trans (h.effect c).settings

/-- Over calls in a row, what is disposed of or waits is no more than what has been paid for. -/
theorem Sound.handed_run (h : n.Sound) (cs : List Call) :
    ∃ handed, (n.run cs).handOvers = n.handOvers ++ handed ∧
      ∀ p, (settled handed).count p + ((n.run cs).queue p.nextHop).count p ≤
        (n.paidIn cs).count p + (n.queue p.nextHop).count p := by
  induction cs generalizing n with
  | nil => exact ⟨[], (List.append_nil _).symm, fun p => Nat.le_of_eq rfl⟩
  | cons c cs ih =>
    obtain ⟨first, hfirst, hle, -, -⟩ := h.handed c
    obtain ⟨later, hlater, hle'⟩ := ih (h.apply c)
    refine ⟨first ++ later, ?_, fun p => ?_⟩
    · show ((n.apply c).run cs).handOvers = _
      rw [hlater, hfirst, List.append_assoc]
    · have h1 := hle p
      have h2 := hle' p
      simp only [settled, List.filter_append, List.map_append, List.count_append, paidIn] at h1 h2 ⊢
      show _ + (((n.apply c).run cs).queue p.nextHop).count p ≤ _
      omega

theorem Sound.proper_paidIn (h : n.Sound) {cs : List Call} {p : SecuredPacket}
    (hp : p ∈ n.paidIn cs) : n.stock.Proper p := by
  induction cs generalizing n with
  | nil => cases hp
  | cons c cs ih =>
    rcases List.mem_append.1 hp with hp | hp
    · obtain ⟨-, -, -, -, hproper⟩ := h.handed c
      exact hproper p hp
    · exact (Stock.proper_congr (h.effect c).settings p).1 (ih (h.apply c) hp)

/-- A packet that a call pays for is paid for before it is dispatched. -/
theorem Sound.debited_first (h : n.Sound) {before : List Call} {c : Call} {p : SecuredPacket}
    (hp : p ∈ (n.run before).paid c) : n.Debited before c p := by
  cases c with
  | sendSecured packet maxDelay now =>
    have hsome := Option.mem_toList.1 hp
    obtain ⟨keys, s, hpaid, hsent⟩ := paidFor_eq_some (h.run before).configured hsome
    exact .first packet maxDelay now keys s rfl hpaid hsent
  | _ => cases hp

theorem queue_create {config : Config} {t : Transport} (h : create config t = .ok n)
    (hop : NodeId) : n.queue hop = [] := by
  unfold create at h
  split at h <;> cases h
  rfl

/-- What waits on a node that was made without queues has been paid for. -/
theorem Sound.mem_paidIn_of_mem_queue (h : n.Sound) (hempty : ∀ hop, n.queue hop = [])
    {before : List Call} {p : SecuredPacket} (hp : p ∈ (n.run before).queue p.nextHop) :
    p ∈ n.paidIn before := by
  obtain ⟨_, -, hle⟩ := h.handed_run before
  have hcount := hle p
  have hpos := List.count_pos_iff.2 hp
  rw [hempty, List.count_nil] at hcount
  exact List.count_pos_iff.1 (by omega)

/-- What a call hands over has the link, the price and the modes that go with its next hop, and has
been paid for before. -/
theorem Sound.handed_debited (h : n.Sound) (hempty : ∀ hop, n.queue hop = []) (before : List Call)
    (c : Call) :
    ∃ handed, ((n.run before).apply c).handOvers = (n.run before).handOvers ++ handed ∧
      ∀ x ∈ handed, n.stock.Proper x.packet ∧ n.Debited before c x.packet := by
  have hb := h.run before
  obtain ⟨handed, hh, -, hfrom, hproper⟩ := hb.handed c
  refine ⟨handed, hh, fun x hx => ?_⟩
  rw [← Stock.proper_congr (s := n.stock) (t := (n.run before).stock) (h.settings_run before)]
  rcases hfrom x hx with hpaid | hqueued
  · exact ⟨hproper _ hpaid, h.debited_first hpaid⟩
  · exact ⟨hb.orderly.proper _ _ hqueued, .earlier (h.mem_paidIn_of_mem_queue hempty hqueued)⟩

/-! ## The ledger -/

/-- The balance of a link: where the packets are that have been paid for on it since it came up,
and what it has counted. -/
structure LinkBalance (tariff : Tariff) (key : LinkKey) (l : Link)
    (queued paid expired : List SecuredPacket) (handed : List HandOver) : Prop where
  places : ((HandOver.accepted handed).filter (·.link = key) ++ queued ++ expired ++
    (HandOver.refused handed).filter (·.link = key)).Perm paid
  packetsSecured : l.stats.packetsSecured =
    ((HandOver.accepted handed).filter (·.link = key)).length + queued.length +
      l.stats.packetsExpired + ((HandOver.refused handed).filter (·.link = key)).length
  packetsExpired : l.stats.packetsExpired = expired.length
  overdue : ∀ p ∈ expired, ∃ now e, p.expiry? now = some e
  keyBytesConsumed : l.stats.keyBytesConsumed =
    (paid.map fun p => (tariff.price p.packet.payload).toNat).sum

/-- The books of a link make its balance. -/
theorem Books.balanced {key : LinkKey} {before after : List Call} {c : Call} {bounds : Bounds}
    {expired : List SecuredPacket} {handed : List HandOver} (h : n.Sound)
    (hb : n.Books key before c after bounds expired handed) {peer : NodeId}
    (hkey : key = n.linkTo peer) {l : Link}
    (hl : (n.run (before ++ c :: after)).links.find? key = some l) :
    LinkBalance n.config.cost key l ((n.run (before ++ c :: after)).queue peer)
      ((((n.run before).apply c).paidIn after).filter (·.link = key))
      (expired.filter (·.link = key)) handed := by
  obtain ⟨buffer, now, l', -, hl', hbooked⟩ := hb.booked
  obtain rfl : l.account = l' := Option.some.inj ((accounts_of_find? _ hl).symm.trans hl')
  have hsettings := h.settings_run (before ++ c :: after)
  have hend := h.run (before ++ c :: after)
  have hpaid : ∀ x ∈ ((n.run before).apply c).paidIn after,
      x.cost = n.config.cost.price x.packet.payload := by
    intro x hx
    have hstart := (h.run before).apply c
    have hproper := hstart.proper_paidIn hx
    have hconfig : ((n.run before).apply c).config = n.config :=
      congrArg Settings.config (((h.run before).effect c).settings.trans (h.settings_run before))
    rw [hproper.cost]
    exact congrArg (·.cost.price x.packet.payload) hconfig
  generalize hm : n.run (before ++ c :: after) = m at *
  have hlinkTo : ∀ hop, LinkKey.join m.stock.settings.id hop = n.linkTo hop := fun hop =>
    congrArg (LinkKey.join · hop) (congrArg Settings.id hsettings)
  have hlink : ∀ hop, ∀ x ∈ m.queue hop, x.link = n.linkTo hop := fun hop x hx => by
    rw [(hend.orderly.proper hop x hx).link, hlinkTo, hend.orderly.nextHop hop x hx]
  have hqueue : ∀ x : SecuredPacket, x.link = key →
      (m.queue x.nextHop).count x = (m.queue peer).count x := by
    intro x hx
    by_cases hhop : x.nextHop = peer
    · rw [hhop]
    · have hnone : ∀ hop, x ∈ m.queue hop → False := fun hop hmem => by
        have hhop' : hop = peer := LinkKey.join_inj ((hlink hop x hmem).symm.trans (hx.trans hkey))
        exact hhop ((hend.orderly.nextHop hop x hmem).trans hhop')
      rw [List.count_eq_zero.2 (hnone _), List.count_eq_zero.2 (hnone _)]
  have hplaces := perm_of_balance (a := HandOver.accepted handed) (r := HandOver.refused handed)
    (fun x hx => (hlink peer x hx).trans hkey.symm)
    fun x hx => by
      have hbalance := hb.balance x hx
      rw [hm, hqueue x hx, HandOver.count_settled] at hbalance
      show _ = (((n.run before).apply c).paidIn after).count x
      omega
  have hexpired : l.stats.packetsExpired = (expired.filter (·.link = key)).length :=
    hbooked.expired.trans (Nat.zero_add _)
  have hsecured : l.stats.packetsSecured =
      ((((n.run before).apply c).paidIn after).filter (·.link = key)).length :=
    hbooked.secured.trans (Nat.zero_add _)
  refine ⟨hplaces, ?_, hexpired, fun x hx => hb.overdue x (List.mem_filter.1 hx).1, ?_⟩
  · rw [hsecured, hexpired, ← hplaces.length_eq]
    simp only [List.length_append]
  · refine (hbooked.consumed.trans (Nat.zero_add _)).trans (congrArg List.sum ?_)
    exact List.map_congr_left fun x hx => congrArg UInt64.toNat (hpaid x (List.mem_filter.1 hx).1)

/-- The ledger of packets, on a node made from any configuration and driven by any calls:

* each link that is up has come up in one of them, and from then on each packet that was paid for
  on it is in one place, and its totals count just these packets;
* what a call hands to the transport has the link, price and modes that go with its next hop, and
  has been paid for before;
* the transport takes no packet more often than it has been paid for. -/
theorem packetLedger {config : Config} {t : Transport} (hn : create config t = .ok n)
    (calls : List Call) :
    (∀ key l, (n.run calls).links.find? key = some l →
      ∃ peer before c after expired handed, key = n.linkTo peer ∧
        calls = before ++ c :: after ∧ n.UpSince key before c after ∧
        (n.run calls).handOvers = (n.run before).handOvers ++ handed ∧
        LinkBalance config.cost key l ((n.run calls).queue peer)
          ((((n.run before).apply c).paidIn after).filter (·.link = key)) expired handed) ∧
    (∀ before c after, calls = before ++ c :: after →
      ∃ handed, ((n.run before).apply c).handOvers = (n.run before).handOvers ++ handed ∧
        ∀ x ∈ handed, x.packet.link = n.linkTo x.packet.nextHop ∧
          x.packet.cost = config.cost.price x.packet.packet.payload ∧
          x.packet.encryption = config.cost.encryption ∧
          x.packet.authentication = config.cost.authentication ∧ n.Debited before c x.packet) ∧
    ∃ handed, (n.run calls).handOvers = n.handOvers ++ handed ∧
      ∀ p, (HandOver.accepted handed).count p ≤ (n.paidIn calls).count p := by
  have hsound := sound_create hn
  have hconfig : n.config = config := congrArg Settings.config (settings_create hn)
  have hempty := queue_create hn
  refine ⟨?_, ?_, ?_⟩
  · intro key l hl
    obtain ⟨before, c, after, bounds, expired, handed, rfl, hs, hbooks⟩ := exists_books hn hl
    obtain ⟨peer, hkey⟩ := hbooks.offers.joins
    have hid : (n.run before).id = n.id := congrArg Settings.id (hsound.settings_run before)
    have hkey' : key = n.linkTo peer := by rw [hkey, linkTo, linkTo, hid]
    refine ⟨peer, before, c, after, expired.filter (·.link = key), handed, hkey', rfl, hs,
      hbooks.handOvers, ?_⟩
    rw [← hconfig]
    exact hbooks.balanced hsound hkey' hl
  · intro before c after _
    obtain ⟨handed, hh, hdebited⟩ := hsound.handed_debited hempty before c
    refine ⟨handed, hh, ?_⟩
    intro x hx
    obtain ⟨hproper, hpaid⟩ := hdebited x hx
    rw [← hconfig]
    exact ⟨hproper.link, hproper.cost, hproper.encryption, hproper.authentication, hpaid⟩
  · obtain ⟨handed, hh, hle⟩ := hsound.handed_run calls
    refine ⟨handed, hh, ?_⟩
    intro p
    have hcount := hle p
    rw [HandOver.count_settled, hempty, List.count_nil] at hcount
    omega

theorem packetLedger_pairRun : ∃ n, create .pair .accepting = .ok n ∧
    (n.run Call.pairRun).handOvers.map (·.packet.cost) = [52] ∧
    (∃ peer before c after expired handed, LinkKey.join ⟨1⟩ ⟨2⟩ = n.linkTo peer ∧
      Call.pairRun = before ++ c :: after ∧ n.UpSince (.join ⟨1⟩ ⟨2⟩) before c after ∧
      (n.run Call.pairRun).handOvers = (n.run before).handOvers ++ handed ∧
      ∃ l, LinkBalance Config.pair.cost (.join ⟨1⟩ ⟨2⟩) l ((n.run Call.pairRun).queue peer)
        ((((n.run before).apply c).paidIn after).filter (·.link = .join ⟨1⟩ ⟨2⟩)) expired handed) ∧
    ∃ handed, (n.run Call.pairRun).handOvers = n.handOvers ++ handed ∧
      ∀ p, (HandOver.accepted handed).count p ≤ (n.paidIn Call.pairRun).count p := by
  obtain ⟨n, hn, hcosts, hup⟩ : ∃ n, create .pair .accepting = .ok n ∧
      (n.run Call.pairRun).handOvers.map (·.packet.cost) = [52] ∧
      ((n.run Call.pairRun).links.find? (.join ⟨1⟩ ⟨2⟩)).isSome :=
    ⟨_, rfl, by decide +kernel, by decide +kernel⟩
  obtain ⟨l, hl⟩ := Option.isSome_iff_exists.1 hup
  obtain ⟨hlinks, -, hhanded⟩ := packetLedger hn Call.pairRun
  obtain ⟨peer, before, c, after, expired, handed, hkey, hsplit, hs, hh, hbalance⟩ := hlinks _ l hl
  exact ⟨n, hn, hcosts,
    ⟨peer, before, c, after, expired, handed, hkey, hsplit, hs, hh, l, hbalance⟩, hhanded⟩

end Node

end KeyReserve
