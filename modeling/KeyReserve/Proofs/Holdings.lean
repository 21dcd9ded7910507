import KeyReserve.Proofs.QueueOrder
import KeyReserve.Proofs.SupplyCalls

/-!
# What a node holds

A node stores its links, its charging sessions, the packets that wait and their deadlines apart from
each other. What it holds for a link goes when the link does, whatever is called in whatever order:
nothing is left of a link that is down.

## Main definitions

* `Node.Trim`: no queue is stored without a packet, and no deadline on a link that is down;
* `Node.Tidy`: everything that is stored belongs to a link that is up.

## Main results

* `Node.Trim.apply`: a call leaves nothing behind in the queues and among the deadlines;
* `Node.tidy_run`: what is stored after any calls.
-/

namespace KeyReserve

/-- The packets and the deadlines that a node stores. -/
structure Holdings where
  queues : Table NodeId (List SecuredPacket)
  deadlines : Deadlines

namespace Node

def holdings (n : Node) : Holdings := ⟨n.queues, n.deadlines⟩

variable (n : Node)

/-! ## Steps that leave the holdings alone -/

@[simp] theorem holdings_cancelTimer (id : Option TimerId) :
    (n.cancelTimer id).holdings = n.holdings := by
  cases id <;> rfl

@[simp] theorem holdings_abandonCharging (link : LinkKey) (reason : String) :
    (n.abandonCharging link reason).2.holdings = n.holdings := by
  unfold abandonCharging
  split
  · rfl
  · exact holdings_cancelTimer _ _

@[simp] theorem holdings_requestCharge (link : LinkKey) (bytes : Bytes) (now : Millis) :
    (n.requestCharge link bytes now).holdings = n.holdings := by
  unfold requestCharge
  split <;> rename_i h
  · exact congrArg (·.2.holdings) h.symm
  · rw [holdings_abandonCharging]
    exact congrArg (·.2.holdings) h.symm

@[simp] theorem holdings_chargeIfLow (link : LinkKey) (now : Millis) :
    (n.chargeIfLow link now).holdings = n.holdings := by
  unfold chargeIfLow
  split
  · rfl
  · split
    · rfl
    · exact holdings_requestCharge _ _ _ _

@[simp] theorem holdings_levelCrossed (link : LinkKey) (crossing : Crossing) (now : Millis) :
    (n.levelCrossed link crossing now).holdings = n.holdings := by
  unfold levelCrossed
  simp only
  split
  · exact holdings_chargeIfLow _ _ _
  · rfl

theorem holdings_chargingRound (link : LinkKey) (now : Millis) :
    (n.chargingRound link now).holdings = n.holdings := by
  unfold chargingRound
  simp only
  split
  · rfl
  · exact holdings_requestCharge _ _ _ _

theorem holdings_awaitRound (link : LinkKey) (applied current : Bytes) (now : Millis) :
    (n.awaitRound link applied current now).2.holdings = n.holdings := by
  unfold awaitRound
  cases n.charger.session? link <;> simp only <;> split <;>
    first | rfl | exact holdings_cancelTimer _ _

theorem holdings_chargeDelivered (peer : NodeId) (bytes : Bytes) (now : Millis) :
    (n.chargeDelivered peer bytes now).2.holdings = n.holdings := by
  rcases n.chargeDelivered_cases peer bytes now with ⟨hsame, -⟩ | ⟨l, c, b, d, hl, hr⟩
  · rw [hsame]
  obtain ⟨routing, hcredited⟩ := n.credited_of_receive hr now
  rw [n.chargeDelivered_of_receive hl hr, hcredited]
  cases d.progress with
  | goesOn _ => exact holdings_awaitRound _ _ _ _ _
  | completed s => exact holdings_cancelTimer _ _

theorem holdings_tick (now : Millis) : (n.tick now).holdings = n.holdings := by
  show (n.links.keys.foldl (fun n key => n.chargeIfLow key now) n).holdings = n.holdings
  exact List.foldlRecOn (motive := fun m : Node => m.holdings = n.holdings) n.links.keys _ rfl
    fun m hm k _ => (m.holdings_chargeIfLow k now).trans hm

theorem holdings_scheduleTick (now : Millis) : (n.scheduleTick now).holdings = n.holdings := by
  unfold scheduleTick
  simp only
  split <;> rfl

theorem holdings_bringUp (peer : NodeId) (bounds : Bounds) (now : Millis) :
    (n.bringUp peer bounds now).2.holdings = n.holdings := by
  unfold bringUp
  simp only
  split
  · rfl
  · exact holdings_chargeIfLow _ _ _

theorem holdings_start (now : Millis) : (n.start now).2.holdings = n.holdings := by
  have hall : ∀ (ls : List LinkSettings) (m : Node),
      (m.bringUpAll now ls).2.holdings = m.holdings := by
    intro ls
    induction ls with
    | nil => exact fun _ => rfl
    | cons l ls ih => exact fun m => (ih _).trans (m.holdings_bringUp _ _ now)
  unfold start
  split
  · rfl
  · exact (holdings_scheduleTick _ now).trans (hall n.config.links n)

theorem holdings_establish (peer : NodeId) (bounds : Bounds) (now : Millis) :
    (n.establish peer bounds now).2.holdings = n.holdings := by
  have h := n.holdings_bringUp peer bounds now
  unfold establish
  split
  · rfl
  · split <;> rename_i hm <;> rw [hm] at h <;> exact h

theorem holdings_requestRoute (destination : NodeId) (now : Millis) :
    (n.requestRoute destination now).2.holdings = n.holdings := by
  unfold requestRoute
  split
  · rfl
  · rfl
  · split <;> rename_i hm <;> exact congrArg (·.2.holdings) hm.symm

theorem holdings_sendBestEffort (packet : Packet) (now : Millis) :
    (n.sendBestEffort packet now).2.holdings = n.holdings := by
  unfold sendBestEffort
  split
  · rfl
  · split
    · rfl
    · simp only
      split
      · exact holdings_requestRoute _ _ now
      · split <;> rename_i hm <;> exact congrArg (·.2.holdings) hm.symm

/-! ## Queues and deadlines -/

/-- No queue is stored without a packet, and no deadline on a link that is down. -/
structure Trim (n : Node) : Prop where
  filled : ∀ hop ps, n.queues.find? hop = some ps → ps ≠ []
  hangs : ∀ packet d, n.deadlines.find? packet = some d → n.links.contains d.link = true

variable {n} {m : Node}

namespace Trim

/-- The holdings are as they were, and no link has gone down. -/
theorem of_holdings (h : n.Trim) (hh : m.holdings = n.holdings)
    (hup : ∀ key, n.links.contains key = true → m.links.contains key = true) : m.Trim where
  filled hop ps hps := by
    rw [show m.queues = n.queues from congrArg Holdings.queues hh] at hps
    exact h.filled hop ps hps
  hangs packet d hd := by
    rw [show m.deadlines = n.deadlines from congrArg Holdings.deadlines hh] at hd
    exact hup d.link (h.hangs packet d hd)

theorem of_stock (h : n.Trim) (hh : m.holdings = n.holdings) (hs : m.stock = n.stock) : m.Trim :=
  h.of_holdings hh fun key hup => by
    rw [isSome_accounts_eq (congrArg (fun s => (s.accounts key).isSome) hs)]
    exact hup

theorem setQueue (h : n.Trim) (hop : NodeId) (ps : List SecuredPacket) :
    (n.setQueue hop ps).Trim where
  filled k qs hqs := by
    unfold Node.setQueue at hqs
    cases ps with
    | nil =>
      rw [List.isEmpty_nil, if_pos rfl, Table.find?_erase] at hqs
      split at hqs
      · cases hqs
      · exact h.filled k qs hqs
    | cons p ps =>
      rw [List.isEmpty_cons, if_neg Bool.false_ne_true, Table.find?_insert] at hqs
      split at hqs
      · cases hqs
        exact List.cons_ne_nil p ps
      · exact h.filled k qs hqs
  hangs := h.hangs

theorem eraseDeadline (h : n.Trim) (packet : PacketId) :
    { n with deadlines := n.deadlines.erase packet }.Trim where
  filled := h.filled
  hangs q d hd := by
    simp only [Table.find?_erase] at hd
    split at hd
    · cases hd
    · exact h.hangs q d hd

theorem armDeadline (h : n.Trim) {p : SecuredPacket} (hup : n.links.contains p.link = true)
    (notBefore : Millis) : (n.armDeadline p notBefore).Trim := by
  unfold Node.armDeadline
  split
  · exact h
  · rename_i deadline _
    simp only
    generalize (if notBefore ≤ deadline then deadline else notBefore) = last
    split
    · exact h
    · refine ⟨h.filled, fun q d hd => ?_⟩
      simp only [Table.find?_insert] at hd
      split at hd
      · cases hd
        exact hup
      · exact h.hangs q d hd

theorem disarmDeadline (h : n.Trim) (packet : PacketId) : (n.disarmDeadline packet).Trim := by
  have herased := h.eraseDeadline packet
  unfold Node.disarmDeadline
  exact herased.of_stock (holdings_cancelTimer _ _) (stock_cancelTimer _ _)

theorem recordExpired (h : n.Trim) (e : DelayExceeded) : (n.recordExpired e).Trim := by
  refine h.of_holdings rfl fun key hup => ?_
  show (n.links.modify e.link _).contains key = true
  rw [Table.contains_eq_isSome, Links.find?_modify]
  rw [Table.contains_eq_isSome] at hup
  split
  · rename_i hk
    rw [Option.isSome_map, ← hk]
    exact hup
  · exact hup

theorem submit (h : n.Trim) (r : Request) : (n.submit r).2.Trim :=
  h.of_holdings rfl fun _ hup => hup

/-! ### Packets that wait -/

theorem enqueue (h : n.Trim) {p : SecuredPacket} (hup : n.links.contains p.link = true) :
    (n.enqueue p).Trim :=
  (h.armDeadline hup 0).setQueue _ _

theorem dispatch (h : n.Trim) {p : SecuredPacket} (hup : n.links.contains p.link = true) :
    (n.dispatch p).2.Trim := by
  have hs := h.submit (.secured p)
  unfold Node.dispatch
  split
  · split <;> rename_i hm
    · rw [hm] at hs
      exact hs
    · obtain rfl := congrArg Prod.snd hm
      split
      · exact hs.enqueue hup
      · exact hs
  · exact h.enqueue hup

theorem sendWaiting (h : n.Trim) (now : Millis) (ps : List SecuredPacket) :
    (n.sendWaiting now ps).2.2.Trim := by
  induction ps generalizing n with
  | nil => exact h
  | cons p ps ih =>
    have hs := h.submit (.secured p)
    rw [Node.sendWaiting]
    split
    · exact ih ((h.disarmDeadline p.id).recordExpired _)
    · split <;> rename_i hm <;> rw [hm] at hs
      · exact ih (hs.disarmDeadline p.id)
      · split
        · exact hs
        · exact ih (hs.disarmDeadline p.id)

theorem linkReady (h : n.Trim) (nextHop : NodeId) (now : Millis) :
    (n.linkReady nextHop now).2.Trim :=
  ((h.setQueue nextHop []).sendWaiting now _).setQueue _ _

/-- A packet that waits longer does so on a link that is up. -/
theorem expireWaiting (h : n.Trim) (ho : n.stock.Orderly) (link : LinkKey) (packet : PacketId)
    (now : Millis) : (n.expireWaiting link packet now).Trim := by
  have herased := h.eraseDeadline packet
  unfold Node.expireWaiting
  split
  · simp only
    split
    · exact herased
    · rename_i nextHop _
      split
      · exact herased
      · rename_i p hp
        split
        · exact (herased.setQueue _ _).recordExpired _
        · refine herased.armDeadline ?_ now
          show n.links.contains p.link = true
          rw [← isSome_accounts]
          exact ho.up nextHop p (List.mem_of_find?_eq_some hp)
  · exact h

/-! ### Links that go down -/

/-- The packets of a link that goes down go with it, and so do their deadlines. -/
theorem teardown (h : n.Trim) (peer : NodeId) : (n.teardown peer).2.Trim := by
  obtain ⟨agenda, hm⟩ := n.exists_teardown peer
  refine ⟨fun hop ps hps => ?_, fun packet d hd => ?_⟩
  · rw [hm, Table.find?_erase] at hps
    split at hps
    · cases hps
    · exact h.filled hop ps hps
  · rw [hm, Deadlines.find?_dropLink, Option.filter_eq_some_iff] at hd
    rw [n.contains_teardown, if_neg (of_decide_eq_true hd.2)]
    exact h.hangs packet d hd.1

theorem teardownAll (h : n.Trim) (keys : List LinkKey) : (n.teardownAll keys).Trim := by
  refine List.foldlRecOn (motive := Trim) keys _ h fun m hm k _ => ?_
  cases k.other m.id with
  | none => exact hm
  | some peer => exact hm.teardown peer

theorem shutdown (h : n.Trim) : n.shutdown.Trim := by
  unfold Node.shutdown
  split
  · exact h
  · have hdown := h.teardownAll n.links.keys
    simp only
    generalize n.teardownAll n.links.keys = m at *
    have hm := hdown.of_stock (m.holdings_cancelTimer m.tickTimer) (m.stock_cancelTimer m.tickTimer)
    exact ⟨hm.filled, hm.hangs⟩

/-! ### Calls -/

theorem sendPaid (h : n.Trim) {secured : Secured}
    (hup : n.links.contains secured.packet.link = true) (maxDelay : Option Millis) (now : Millis) :
    (n.sendPaid secured maxDelay now).2.Trim := by
  unfold Node.sendPaid
  cases secured.crossing with
  | none => exact h.dispatch hup
  | some x =>
    have hstock := n.stock_levelCrossed secured.packet.link x now
    have hsame : (n.levelCrossed secured.packet.link x now).links.contains secured.packet.link =
        n.links.contains secured.packet.link :=
      isSome_accounts_eq (congrArg (fun s => (s.accounts secured.packet.link).isSome) hstock)
    exact (h.of_stock (holdings_levelCrossed _ _ x now) hstock).dispatch (hsame.trans hup)

/-- A packet that starts to wait has been paid for on a link that is up. -/
theorem sendSecured (h : n.Trim) (packet : Packet) (maxDelay : Option Millis) (now : Millis) :
    (n.sendSecured packet maxDelay now).2.Trim := by
  unfold Node.sendSecured
  split
  · exact h
  · split
    · exact h
    · rename_i cs q _
      have hlearned : { n with protocols := q }.Trim := h.of_holdings rfl fun _ hup => hup
      simp only
      split
      · exact hlearned.of_stock (holdings_requestRoute _ _ now) (stock_requestRoute _ _ now)
      · split
        · exact h.of_holdings rfl fun _ hup => hup
        · exact h.of_holdings rfl fun _ hup => hup
        · rename_i viable routing _
          obtain ⟨links, hlinks⟩ :=
            exists_payOnFirst { n with protocols := q, routing } packet viable
          have hsame := contains_payOnFirst { n with protocols := q, routing } packet viable
          have hspent := spent_payOnFirst { n with protocols := q, routing } packet viable
          split <;> rename_i hm <;> rw [hm] at hlinks hsame hspent <;> simp only at hlinks <;>
            subst hlinks
          · obtain ⟨-, l, -, -, -, hl, -⟩ := hspent.debit
            have hpays : { n with protocols := q, routing, links }.Trim :=
              h.of_holdings rfl fun key hup => (hsame key).trans hup
            exact hpays.sendPaid (congrArg Option.isSome hl) maxDelay now
          · exact h.of_holdings rfl fun key hup => (hsame key).trans hup

theorem apply (h : n.Trim) (hs : n.Sound) (c : Call) : (n.apply c).Trim := by
  have hflow : ∀ {m : Node} {paid expired : List SecuredPacket} {handed : List HandOver},
      Flow n.stock m.stock paid expired handed → ∀ key, n.links.contains key = true →
        m.links.contains key = true := fun hf key hup => (isSome_accounts_eq (hf.up key)).trans hup
  cases c with
  | start now =>
    exact h.of_holdings (n.holdings_start now) (contains_of_raised (n.raised_start now))
  | establish peer bounds now =>
    exact h.of_holdings (n.holdings_establish peer bounds now)
      (contains_of_raised (n.raised_establish peer bounds now))
  | teardown peer => exact h.teardown peer
  | shutdown => exact h.shutdown
  | tick now => exact h.of_stock (n.holdings_tick now) (n.stock_tick now)
  | timer timer now =>
    cases timer with
    | chargingRound link =>
      exact h.of_stock (n.holdings_chargingRound link now) (n.stock_chargingRound link now)
    | deadline link packet => exact h.expireWaiting hs.orderly link packet now
    | tick =>
      refine h.of_stock ?_ (n.stock_onTimer_tick now)
      show (n.onTimer .tick now).holdings = n.holdings
      unfold onTimer
      simp only
      split
      · rw [holdings_scheduleTick, holdings_tick]
        rfl
      · rfl
  | sendSecured packet maxDelay now => exact h.sendSecured packet maxDelay now
  | sendBestEffort packet now =>
    exact h.of_holdings (n.holdings_sendBestEffort packet now)
      (hflow (n.flow_sendBestEffort packet now))
  | linkReady nextHop now => exact h.linkReady nextHop now
  | chargeDelivered peer bytes now =>
    exact h.of_holdings (n.holdings_chargeDelivered peer bytes now)
      (hflow (n.flow_chargeDelivered peer bytes now))
  | chargeFailed peer reason =>
    exact h.of_stock (n.holdings_abandonCharging _ reason) (n.stock_abandonCharging _ reason)
  | advertisement sender destination hops seq now =>
    refine h.of_stock ?_ (n.stock_onAdvertisement sender destination hops seq now)
    show (n.onAdvertisement sender destination hops seq now).2.holdings = n.holdings
    unfold onAdvertisement
    split <;> rfl
  | routeReply nextHop destination hops seq now =>
    refine h.of_stock ?_ (n.stock_onRouteReply nextHop destination hops seq now)
    show (n.onRouteReply nextHop destination hops seq now).2.holdings = n.holdings
    unfold onRouteReply
    split <;> rfl
  | drainEvents => exact ⟨h.filled, h.hangs⟩
  | rearrange agenda => exact ⟨h.filled, h.hangs⟩

theorem run (h : n.Trim) (hs : n.Sound) (cs : List Call) : (n.run cs).Trim := by
  induction cs generalizing n with
  | nil => exact h
  | cons c cs ih => exact ih (h.apply hs c) (hs.apply c)

end Trim

theorem trim_create {config : Config} {t : Transport} (h : create config t = .ok n) : n.Trim := by
  unfold create at h
  split at h <;> cases h
  exact ⟨nofun, nofun⟩

/-! ## All that is stored -/

/-- Everything that the node stores belongs to a link that is up. -/
structure Tidy (n : Node) : Prop where
  /-- A link joins the node to another node. -/
  links : ∀ key l, n.links.find? key = some l → ∃ peer, peer ≠ n.id ∧ key = n.linkTo peer
  /-- A session has delivered less than its target, all of which has fitted, and the buffer of its
  link has room left. -/
  sessions : ∀ key s, n.charger.session? key = some s → ∃ l, n.links.find? key = some l ∧
    s.applied = s.delivered ∧ s.delivered < s.target ∧ l.buffer.current < l.buffer.maximum
  /-- A queue holds packets, all of them for its next hop and on the link to it. -/
  queues : ∀ hop ps, n.queues.find? hop = some ps →
    ps ≠ [] ∧ (∃ l, n.links.find? (n.linkTo hop) = some l) ∧
      ∀ p ∈ ps, p.nextHop = hop ∧ p.link = n.linkTo hop
  deadlines : ∀ packet d, n.deadlines.find? packet = some d → ∃ l, n.links.find? d.link = some l

theorem exists_of_contains {key : LinkKey} (h : n.links.contains key = true) :
    ∃ l, n.links.find? key = some l :=
  Option.isSome_iff_exists.1 h

theorem Sound.tidy (hs : n.Sound) (hsupply : n.Supplied) (ht : n.Trim) : n.Tidy where
  links key l hl := by
    have hup : n.links.contains key = true := congrArg Option.isSome hl
    rw [← isSome_accounts] at hup
    obtain ⟨peer, rfl⟩ := hs.joined key hup
    refine ⟨peer, ?_, rfl⟩
    rintro rfl
    have hbuffer : (n.supply (n.linkTo n.id)).buffer.isSome = true :=
      congrArg Option.isSome (congrArg (Option.map Link.buffer) hl)
    exact Bool.false_ne_true (((hsupply _).joins hbuffer).symm.trans (LinkKey.isLoop_join n.id))
  sessions key s hopen := by
    obtain ⟨b, hb, hrest⟩ := (hsupply key).covered.lt_maximum hopen
    obtain ⟨l, hl, rfl⟩ := Option.map_eq_some_iff.1 hb
    exact ⟨l, hl, hrest⟩
  queues hop ps hps := by
    have hqueue : n.queue hop = ps := by rw [queue, hps, Option.getD_some]
    have hown : ∀ p ∈ ps, p.nextHop = hop ∧ p.link = n.linkTo hop := by
      intro p hp
      rw [← hqueue] at hp
      have hhop := hs.orderly.nextHop hop p hp
      exact ⟨hhop, hhop ▸ (hs.orderly.proper hop p hp).link⟩
    have hne := ht.filled hop ps hps
    refine ⟨hne, ?_, hown⟩
    obtain ⟨p, hp⟩ := List.exists_mem_of_ne_nil ps hne
    have hup := hs.orderly.up hop p (show p ∈ n.queue hop from hqueue ▸ hp)
    rw [isSome_accounts, (hown p hp).2] at hup
    exact exists_of_contains hup
  deadlines packet d hd := exists_of_contains (ht.hangs packet d hd)

end Node

/-- The link of a pair comes up and is charged, and a packet with a bound on its age is sent
meanwhile. -/
def Call.sentInCharge : List Call :=
  [.start 0, .chargeDelivered ⟨2⟩ 30 100, .sendSecured ⟨⟨7⟩, ⟨2⟩, 5⟩ (some 50) 100]

namespace Node

variable {n : Node}

/-- On a node made from any configuration and driven by any calls, everything that is stored belongs
to a link that is up. -/
theorem tidy_run {config : Config} {t : Transport} (h : create config t = .ok n)
    (calls : List Call) : (n.run calls).Tidy :=
  ((sound_create h).run calls).tidy ((supplied_create h).run calls)
    ((trim_create h).run (sound_create h) calls)

/-- The node stores a link, a session, a packet and its deadline, all at once. -/
theorem tidy_run_pair : ∃ n, create .pair .hesitant = .ok n ∧
    ((n.run Call.sentInCharge).links.find? (.join ⟨1⟩ ⟨2⟩)).isSome = true ∧
    ((n.run Call.sentInCharge).charger.session? (.join ⟨1⟩ ⟨2⟩)).isSome = true ∧
    ((n.run Call.sentInCharge).queues.find? ⟨2⟩).isSome = true ∧
    ((n.run Call.sentInCharge).deadlines.find? ⟨7⟩).isSome = true ∧
    (n.run Call.sentInCharge).Tidy := by
  obtain ⟨n, hn, hlink, hsession, hqueue, hdeadline⟩ : ∃ n, create .pair .hesitant = .ok n ∧
      ((n.run Call.sentInCharge).links.find? (.join ⟨1⟩ ⟨2⟩)).isSome = true ∧
      ((n.run Call.sentInCharge).charger.session? (.join ⟨1⟩ ⟨2⟩)).isSome = true ∧
      ((n.run Call.sentInCharge).queues.find? ⟨2⟩).isSome = true ∧
      ((n.run Call.sentInCharge).deadlines.find? ⟨7⟩).isSome = true :=
    ⟨_, rfl, by decide +kernel, by decide +kernel, by decide +kernel, by decide +kernel⟩
  exact ⟨n, hn, hlink, hsession, hqueue, hdeadline, tidy_run hn _⟩

end Node

end KeyReserve
