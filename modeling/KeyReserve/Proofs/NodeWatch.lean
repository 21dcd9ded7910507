import KeyReserve.Proofs.RecordRuns
import KeyReserve.Proofs.Watch

/-!
# The watch of a node

Each operation of a node is some steps of its watch: charging and ticks set timers of their own,
links come up and go down with what hangs on them, packets leave a queue with their timers. Only a
packet that is sent may join a queue in the end.

## Main definitions

* `Node.watch`: the timers, the queues and the links of a node;
* `Node.Sends`: a packet may join a queue.

## Main results

* `Node.watch_start`, `Node.watch_establish`, `Node.watch_shutdown`: links that come up and go down;
* `Node.sends_sendSecured`, `Node.Sends.turned`: what becomes of a packet that is sent;
* `Node.step_linkReady`, `Node.step_firedDeadline`: the ways out of a queue.
-/

namespace KeyReserve

namespace Node

/-- The timers, the queues and the links of the node. -/
def watch (n : Node) : Watch := ⟨n.clock, n.id, n.queue, n.links.contains⟩

open Clock Relation

variable (n : Node)

/-! ## Watches that differ in a part -/

theorem isSome_accounts_eq {m n : Node} {key : LinkKey}
    (h : (m.stock.accounts key).isSome = (n.stock.accounts key).isSome) :
    m.links.contains key = n.links.contains key := by
  rw [← isSome_accounts, ← isSome_accounts, h]

theorem watch_eq {m n : Node} (hid : m.id = n.id) (hq : m.queue = n.queue)
    (hup : ∀ key, m.links.contains key = n.links.contains key) :
    m.watch = { n.watch with clock := m.clock } := by
  have hup' : m.links.contains = n.links.contains := funext hup
  simp only [watch, hid, hq, hup']

theorem watch_of_stock {m n : Node} (h : m.stock = n.stock) :
    m.watch = { n.watch with clock := m.clock } :=
  watch_eq (congrArg (·.settings.id) h) (congrArg Stock.queue h) fun key =>
    isSome_accounts_eq (congrArg (fun s => (s.accounts key).isSome) h)

/-- Timers of rounds are set and taken back, and nothing else happens. -/
theorem step_of_rounds {m n : Node} (hw : m.watch = { n.watch with clock := m.clock })
    (hs : Steps Timer.AsksRound n.clock m.clock) : Watch.Step n.watch m.watch :=
  hw ▸ .rounds hs

/-- Links that are up stay so while others come up. -/
theorem contains_of_raised {m n : Node} {offered : LinkKey → Bounds → Prop}
    (hr : Raised n.stock m.stock offered) (key : LinkKey) (hkey : n.links.contains key = true) :
    m.links.contains key = true := by
  rw [← isSome_accounts] at hkey ⊢
  rcases hr.accounts key with heq | ⟨hdown, -⟩
  · rw [heq]
    exact hkey
  · rw [hdown] at hkey
    cases hkey

/-- Links come up, and rounds are asked for. -/
theorem steps_of_raised {m n : Node} {offered : LinkKey → Bounds → Prop}
    (hphase : n.phase ≠ .stopped) (hr : Raised n.stock m.stock offered)
    (hs : Steps Timer.AsksRound n.clock m.clock) : ReflTransGen Watch.Step n.watch m.watch := by
  have hraised : Watch.Step n.watch { n.watch with up := m.links.contains } :=
    .raised hphase (contains_of_raised hr)
  have hm : m.watch = { n.watch with up := m.links.contains, clock := m.clock } := by
    simp only [watch, show m.id = n.id from congrArg Settings.id hr.settings,
      show m.queue = n.queue from hr.queue]
  rw [hm]
  exact (ReflTransGen.single hraised).tail (.rounds hs)

theorem watch_start (now : Millis) : ReflTransGen Watch.Step n.watch (n.start now).2.watch := by
  unfold start
  split
  · exact .refl
  · rename_i hphase
    have hcreated : n.phase = .created := not_not.1 hphase
    have hraised := steps_of_raised (by rw [hcreated]; nofun)
      (n.raised_bringUpAll now n.config.links) (n.steps_bringUpAll now n.config.links)
    simp only
    generalize (n.bringUpAll now n.config.links).2 = m at *
    have hstarted : Watch.Step m.watch { m with phase := .running }.watch := .started m.watch
    have htick := steps_scheduleTick { m with phase := .running } now
    have hset : Watch.Step { m with phase := .running }.watch
        ({ m with phase := .running }.scheduleTick now).watch := by
      rw [watch_of_stock (stock_scheduleTick { m with phase := .running } now)]
      refine .aside htick ?_ fun _ => .inr rfl
      rintro t rfl
      exact not_false
    exact (hraised.tail hstarted).tail hset

theorem watch_establish (peer : NodeId) (bounds : Bounds) (now : Millis) :
    ReflTransGen Watch.Step n.watch (n.establish peer bounds now).2.watch := by
  have hs := n.steps_establish peer bounds now
  have hr := n.raised_establish peer bounds now
  by_cases hphase : n.phase = .stopped
  · have hsame : (n.establish peer bounds now).2 = n := by
      unfold establish
      rw [if_pos hphase]
    rw [hsame]
  · exact steps_of_raised hphase hr hs

/-! ## Links that go down -/

theorem contains_teardown (peer : NodeId) (key : LinkKey) :
    (n.teardown peer).2.links.contains key =
      if key = n.linkTo peer then false else n.links.contains key := by
  rw [← isSome_accounts, n.stock_teardown, ← isSome_accounts]
  show (if key = n.linkTo peer then none else n.stock.accounts key).isSome = _
  split <;> rfl

theorem step_teardown (peer : NodeId) : Watch.Step n.watch (n.teardown peer).2.watch := by
  have hq : (n.teardown peer).2.queue = fun h => if h = peer then [] else n.queue h :=
    congrArg Stock.queue (n.stock_teardown peer)
  have hw : (n.teardown peer).2.watch = { n.watch.withQueue peer [] with
      clock := (n.teardown peer).2.clock, up := (n.teardown peer).2.links.contains } := by
    simp only [watch, Watch.withQueue, n.id_teardown, hq]
  rw [hw]
  exact .lowered (n.disarmed_teardown peer) (n.contains_teardown peer)

theorem steps_teardownAll (keys : List LinkKey) :
    ReflTransGen Watch.Step n.watch (n.teardownAll keys).watch := by
  unfold teardownAll
  induction keys generalizing n with
  | nil => exact .refl
  | cons k ks ih =>
    rw [List.foldl_cons]
    cases k.other n.id with
    | none => exact ih n
    | some peer => exact (ReflTransGen.single (n.step_teardown peer)).trans (ih _)

/-- Links that are torn down are down, and no other comes up meanwhile. -/
theorem contains_teardownAll {keys : List LinkKey}
    (hkeys : ∀ k ∈ keys, ∃ peer, k = n.linkTo peer) {key : LinkKey}
    (h : n.links.contains key = true → key ∈ keys) :
    (n.teardownAll keys).links.contains key = false := by
  induction keys generalizing n with
  | nil => exact Bool.eq_false_iff.2 fun hup => absurd (h hup) List.not_mem_nil
  | cons k ks ih =>
    obtain ⟨peer, rfl⟩ := hkeys k List.mem_cons_self
    rw [teardownAll_cons]
    refine ih (n.teardown peer).2 ?_ ?_
    · rw [n.linkTo_teardown peer]
      exact fun k hk => hkeys k (List.mem_cons_of_mem _ hk)
    · intro hup
      rw [n.contains_teardown] at hup
      split at hup
      · cases hup
      · rename_i hne
        exact (List.mem_cons.1 (h hup)).resolve_left hne

/-- The links that are up are those that the node tears down to stop. -/
theorem Sound.linkTo_of_mem_keys (h : n.Sound) : ∀ k ∈ n.links.keys, ∃ peer, k = n.linkTo peer := by
  intro k hk
  refine h.joined k ?_
  rw [isSome_accounts, Table.contains_eq_isSome]
  exact Table.mem_keys_iff.1 hk

/-- A node that tears down all its links has none left. -/
theorem Sound.contains_teardownAll_keys (h : n.Sound) (key : LinkKey) :
    (n.teardownAll n.links.keys).links.contains key = false :=
  n.contains_teardownAll (linkTo_of_mem_keys n h) fun hup =>
    Table.mem_keys_iff.2 ((Table.contains_eq_isSome _ _).symm.trans hup)

/-- A node that stops has no link left, and then no tick. -/
theorem watch_shutdown (h : n.Sound) : ReflTransGen Watch.Step n.watch n.shutdown.watch := by
  unfold shutdown
  split
  · exact .refl
  · have hdown := n.steps_teardownAll n.links.keys
    have hnone := Sound.contains_teardownAll_keys n h
    simp only
    generalize n.teardownAll n.links.keys = m at *
    have hd := m.disarmed_tick
    have htick : Watch.Step m.watch { m.cancelTimer m.tickTimer with tickTimer := none }.watch := by
      have hstock : { m.cancelTimer m.tickTimer with tickTimer := none }.stock = m.stock :=
        m.stock_cancelTimer m.tickTimer
      rw [watch_of_stock hstock]
      refine .aside (.disarm (.refl _) (fun t ht => ht) hd) ?_ ?_
      · rintro t rfl
        exact not_false
      · intro ht
        rw [hd.noted .tick rfl] at ht
        cases ht
    refine (hdown.tail htick).tail ?_
    refine .stopped (hd.noted .tick rfl) fun key => ?_
    have hlinks : { m.cancelTimer m.tickTimer with tickTimer := none }.links = m.links := by
      cases m.tickTimer <;> rfl
    show Table.contains _ key = false
    rw [hlinks]
    exact hnone key

/-! ## Packets that start to wait -/

/-- Rounds are asked for, and then nothing more, or a packet on a link that is up starts to wait. -/
def Sends (n m : Node) : Prop :=
  ∃ c, Steps Timer.AsksRound n.clock c ∧ (m.clock = c ∧ m.queue = n.queue ∨
    ∃ p, n.links.contains p.link = true ∧ Waits p c m.clock ∧
      ∀ h, m.queue h = if h = p.nextHop then n.queue p.nextHop ++ [p] else n.queue h)

theorem waits_dispatch (p : SecuredPacket) :
    (n.dispatch p).2.clock = n.clock ∧ (n.dispatch p).2.queue = n.queue ∨
      Waits p n.clock (n.dispatch p).2.clock ∧
        ∀ h, (n.dispatch p).2.queue h =
          if h = p.nextHop then n.queue p.nextHop ++ [p] else n.queue h := by
  have hwaits : ∀ m : Node, m.clock = n.clock → m.queue = n.queue →
      Waits p n.clock (m.enqueue p).clock ∧ ∀ h, (m.enqueue p).queue h =
        if h = p.nextHop then n.queue p.nextHop ++ [p] else n.queue h := by
    intro m hc hq
    refine ⟨?_, fun h => ?_⟩
    · refine hc ▸ m.waits_armDeadline p fun due hdue => ?_
      obtain ⟨tag, -, -, hsum⟩ := SecuredPacket.tooOldAt?_eq_some_iff.1 hdue
      rw [UInt64.lt_iff_toNat_lt, hsum]
      exact Nat.succ_pos _
    · rw [show (m.enqueue p).queue = _ from congrArg Stock.queue (m.stock_enqueue p), ← hq]
      rfl
  unfold dispatch
  split
  · split
    · rename_i m hm
      obtain rfl : (n.submit (.secured p)).2 = m := congrArg Prod.snd hm
      exact .inl ⟨rfl, rfl⟩
    · rename_i m hm
      obtain rfl : (n.submit (.secured p)).2 = m := congrArg Prod.snd hm
      split
      · exact .inr (hwaits _ rfl rfl)
      · exact .inl ⟨rfl, rfl⟩
  · exact .inr (hwaits n rfl rfl)

/-- A walk over routes changes links only. -/
theorem exists_payOnFirst (packet : Packet) (rs : List RankedRoute) :
    ∃ links, (n.payOnFirst packet rs).2 = { n with links } := by
  induction rs generalizing n with
  | nil => exact ⟨_, rfl⟩
  | cons r rs ih =>
    rw [payOnFirst]
    split
    · exact ih n
    · simp only
      split
      · exact ⟨_, rfl⟩
      · obtain ⟨links, h⟩ := ih { n with links := _ }
        exact ⟨links, h⟩

/-- It brings no link up and takes none down. -/
theorem contains_payOnFirst (packet : Packet) (rs : List RankedRoute) (key : LinkKey) :
    (n.payOnFirst packet rs).2.links.contains key = n.links.contains key := by
  have hinsert : ∀ (m : Node) (k : LinkKey) (l l' : Link), m.links.find? k = some l →
      (m.links.insert k l').contains key = m.links.contains key := by
    intro m k l l' hl
    rw [Table.contains_eq_isSome, Table.contains_eq_isSome, Table.find?_insert]
    split
    · rename_i hk
      rw [hk, hl]
      rfl
    · rfl
  induction rs generalizing n with
  | nil => rfl
  | cons r rs ih =>
    rw [payOnFirst]
    split
    · exact ih n
    · rename_i hl
      simp only
      split
      · exact hinsert n _ _ _ hl
      · exact (ih _).trans (hinsert n _ _ _ hl)

theorem sends_sendPaid {m : Node} {secured : Secured}
    (hup : m.links.contains secured.packet.link = true) (maxDelay : Option Millis) (now : Millis) :
    m.Sends (m.sendPaid secured maxDelay now).2 := by
  have hdispatch : ∀ k : Node, k.stock = m.stock → ∀ d, Steps Timer.AsksRound m.clock k.clock →
      m.Sends (k.dispatch (secured.packet.tagged d now)).2 := by
    intro k hk d hs
    have hq : k.queue = m.queue := congrArg Stock.queue hk
    refine ⟨k.clock, hs, ?_⟩
    rcases k.waits_dispatch (secured.packet.tagged d now) with ⟨hc, hsame⟩ | ⟨hw, hjoins⟩
    · exact .inl ⟨hc, hsame.trans hq⟩
    · exact .inr ⟨secured.packet.tagged d now, hup, hw, fun h => hq ▸ hjoins h⟩
  unfold sendPaid
  cases secured.crossing with
  | none => exact hdispatch m rfl _ (.refl _)
  | some x => exact hdispatch _ (m.stock_levelCrossed _ x now) _ (m.steps_levelCrossed _ x now)

theorem Sends.of_eq {m n k : Node} (h : m.Sends k) (hc : m.clock = n.clock) (hq : m.queue = n.queue)
    (hup : ∀ key, m.links.contains key = n.links.contains key) : n.Sends k := by
  obtain ⟨c, hs, hrest⟩ := h
  rw [hc] at hs
  rw [hq] at hrest
  refine ⟨c, hs, hrest.imp_right ?_⟩
  rintro ⟨p, hp, hw, hjoins⟩
  exact ⟨p, hup p.link ▸ hp, hw, hjoins⟩

/-- Routes are asked for without a timer. -/
theorem clock_requestRoute (destination : NodeId) (now : Millis) :
    (n.requestRoute destination now).2.clock = n.clock := by
  unfold requestRoute
  split
  · rfl
  · rfl
  · split <;> rename_i hm <;> exact congrArg (·.2.clock) hm.symm

theorem sends_sendSecured (packet : Packet) (maxDelay : Option Millis) (now : Millis) :
    n.Sends (n.sendSecured packet maxDelay now).2 := by
  have hstill : ∀ m : Node, m.clock = n.clock → m.queue = n.queue → n.Sends m := fun m hc hq =>
    ⟨m.clock, .of_eq hc, .inl ⟨rfl, hq⟩⟩
  unfold sendSecured
  split
  · exact hstill n rfl rfl
  · split
    · exact hstill n rfl rfl
    · rename_i cs q _
      simp only
      split
      · refine hstill _ (clock_requestRoute { n with protocols := q } _ now) ?_
        exact congrArg Stock.queue (stock_requestRoute { n with protocols := q } _ now)
      · split
        · exact hstill _ rfl rfl
        · exact hstill _ rfl rfl
        · rename_i viable routing _
          obtain ⟨links, hlinks⟩ :=
            exists_payOnFirst { n with protocols := q, routing } packet viable
          have hsame := contains_payOnFirst { n with protocols := q, routing } packet viable
          have hspent := spent_payOnFirst { n with protocols := q, routing } packet viable
          split <;> rename_i hm <;> rw [hm] at hlinks hsame hspent <;> simp only at hlinks <;>
            subst hlinks
          · obtain ⟨-, l, -, -, -, hl, -⟩ := hspent.debit
            exact (sends_sendPaid (congrArg Option.isSome hl) maxDelay now).of_eq rfl rfl hsame
          · exact hstill _ rfl rfl

theorem sends_sendBestEffort (packet : Packet) (now : Millis) :
    n.Sends (n.sendBestEffort packet now).2 := by
  have hstill : ∀ m : Node, m.clock = n.clock → m.queue = n.queue → n.Sends m := fun m hc hq =>
    ⟨m.clock, .of_eq hc, .inl ⟨rfl, hq⟩⟩
  unfold sendBestEffort
  split
  · exact hstill n rfl rfl
  · split
    · exact hstill n rfl rfl
    · rename_i cs q _
      simp only
      split
      · refine hstill _ (clock_requestRoute { n with protocols := q, routing := _ } _ now) ?_
        exact congrArg Stock.queue
          (stock_requestRoute { n with protocols := q, routing := _ } _ now)
      · rename_i best _
        split <;> rename_i m hm <;>
          obtain rfl : ({ n with protocols := q, routing := _ }.submit _).2 = m :=
            congrArg Prod.snd hm
        · exact hstill _ rfl rfl
        · exact hstill _ rfl rfl

theorem queue_chargeDelivered (peer : NodeId) (bytes : Bytes) (now : Millis) :
    (n.chargeDelivered peer bytes now).2.queue = n.queue := by
  rcases n.chargeDelivered_cases peer bytes now with ⟨hsame, -⟩ | ⟨l, c, b, d, hl, hr⟩
  · rw [hsame]
  · exact congrArg Stock.queue (n.stock_chargeDelivered hl hr now)

/-- Where links stay up or down as they are, this is a step of the watch, after which a packet may
join a queue. -/
theorem Sends.turned {m n : Node} (h : n.Sends m) {paid expired : List SecuredPacket}
    {handed : List HandOver} (hf : Flow n.stock m.stock paid expired handed) :
    n.watch.Turned m.watch := by
  have hid : m.id = n.id := congrArg Settings.id hf.settings
  have hup : m.links.contains = n.links.contains := funext fun key => isSome_accounts_eq (hf.up key)
  obtain ⟨c, hs, hrest⟩ := h
  refine ⟨{ n.watch with clock := c }, .single (.rounds hs), ?_⟩
  rcases hrest with ⟨hc, hq⟩ | ⟨p, hp, hw, hq⟩
  · exact .inl (hc ▸ watch_eq hid hq fun key => congrFun hup key)
  · have hm : m.watch = { { n.watch with clock := c }.withQueue p.nextHop
        (n.queue p.nextHop ++ [p]) with clock := m.clock } := by
      simp only [watch, Watch.withQueue, hid, hup, ← funext hq]
    rw [hm]
    exact .inr (.intro hp hw)

/-! ## Packets that leave their queue -/

theorem watch_setQueue (hop : NodeId) (ps : List SecuredPacket) :
    (n.setQueue hop ps).watch = n.watch.withQueue hop ps := by
  have hq : (n.setQueue hop ps).queue = fun h => if h = hop then ps else n.queue h :=
    funext fun h => n.queue_setQueue hop h ps
  simp only [watch, Watch.withQueue, hq]
  rfl

/-- An expiry is counted and recorded, and no link comes up or goes down by it. -/
theorem watch_recordExpired (e : DelayExceeded) : (n.recordExpired e).watch = n.watch := by
  refine watch_eq rfl rfl fun key => ?_
  rw [← isSome_accounts, stock_recordExpired, ← isSome_accounts]
  show (if key = e.link then _ else _ : Option Link).isSome = _
  split
  · rw [Option.isSome_map]
  · rfl

/-- Packets that are sent or dropped take their timers along; queues are left to the caller. -/
theorem watch_sendWaiting (now : Millis) (ps : List SecuredPacket) :
    (n.sendWaiting now ps).2.2.watch =
      { n.watch with clock := (n.sendWaiting now ps).2.2.clock } := by
  induction ps generalizing n with
  | nil => rfl
  | cons p ps ih =>
    have hrest : ∀ m k : Node, k.watch = { n.watch with clock := m.clock } →
        (k.sendWaiting now ps).2.2.watch =
          { n.watch with clock := (k.sendWaiting now ps).2.2.clock } := by
      intro m k hk
      refine (ih k).trans ?_
      rw [hk]
    have hdisarm : ∀ m : Node, m.watch = n.watch →
        (m.disarmDeadline p.id).watch = { n.watch with clock := (m.disarmDeadline p.id).clock } := by
      intro m hm
      rw [watch_of_stock (m.stock_disarmDeadline p.id), hm]
    rw [sendWaiting]
    split
    · rename_i e _
      exact hrest _ _ ((watch_recordExpired _ e).trans (hdisarm n rfl))
    · split <;> rename_i m hm <;> obtain rfl : (n.submit (.secured p)).2 = m := congrArg Prod.snd hm
      · exact hrest _ _ (hdisarm _ rfl)
      · split
        · rfl
        · exact hrest _ _ (hdisarm _ rfl)

theorem step_linkReady (hop : NodeId) (now : Millis) :
    Watch.Step n.watch (n.linkReady hop now).2.watch := by
  obtain ⟨gone, hgone, hd⟩ := (n.setQueue hop []).disarmed_sendWaiting now (n.queue hop)
  have hw : (n.linkReady hop now).2.watch = { n.watch.withQueue hop
      ((n.setQueue hop []).sendWaiting now (n.queue hop)).2.1 with
      clock := (n.linkReady hop now).2.clock } := by
    refine (watch_setQueue _ hop _).trans ?_
    rw [watch_sendWaiting, watch_setQueue]
    exact congrArg (fun w : Watch => { w with clock := (n.linkReady hop now).2.clock })
      (n.watch.withQueue_withQueue hop [] _)
  rw [hw]
  exact .left hgone hd

/-! ## Timers that fire -/

variable {e : Agenda.Entry Timer} {a : Agenda Timer}

/-- The timer of a packet fires: the packet is dropped if it is too old, and has its timer set again
if it is not. -/
theorem step_firedDeadline (h : n.Sound) (hpop : n.agenda.pop = some (e, a)) {link : LinkKey}
    {packet : PacketId} (he : e.event = .deadline link packet) (now : Millis) :
    Watch.Step n.watch ({ n with agenda := a }.expireWaiting link packet now).watch := by
  have hforget : { n with agenda := a, deadlines := n.deadlines.erase packet }.watch =
      { n.watch with clock := { n.clock with agenda := a }.forget packet } :=
    congrArg (fun c => { n.watch with clock := c })
      (clock_eraseDeadline { n with agenda := a } packet)
  unfold expireWaiting
  split
  · simp only
    split
    · rename_i hother
      rw [hforget]
      refine .idle hpop he (.inr fun hop hlink => ?_)
      rw [hlink] at hother
      cases (LinkKey.other_join n.id hop).symm.trans hother
    · rename_i nextHop hother
      obtain rfl := LinkKey.eq_join_of_other hother
      split
      · rename_i hnone
        rw [hforget]
        refine .idle hpop he (.inr fun hop hlink p hp hpacket => ?_)
        obtain rfl := LinkKey.join_inj hlink
        exact List.find?_eq_none.1 hnone p hp (decide_eq_true hpacket)
      · rename_i p hp
        obtain ⟨hpacket, before, after, hq, hbefore⟩ := List.find?_eq_some_iff_append.1 hp
        obtain rfl : p.id = packet := of_decide_eq_true hpacket
        have hmem : p ∈ n.queue nextHop := List.mem_of_find?_eq_some hp
        split
        · have herase : (n.queue nextHop).eraseP (fun q => q.id = p.id) = before ++ after := by
            refine (congrArg _ hq).trans ?_
            rw [List.eraseP_append_right _ (by simpa using hbefore), List.eraseP_cons, hpacket]
            rfl
          rw [watch_recordExpired, watch_setQueue, hforget]
          exact herase ▸ .expired hpop he hq
        · rename_i hexpiry
          have hlater : ∀ due, p.tooOldAt? = some due → now < due := by
            intro due hdue
            by_contra hle
            have hsome := (p.isSome_expiry? now).2 ⟨due, hdue, UInt64.not_lt.1 hle⟩
            rw [hexpiry] at hsome
            cases hsome
          have hwaits := waits_armDeadline
            { n with agenda := a, deadlines := n.deadlines.erase p.id } p hlater
          rw [clock_eraseDeadline { n with agenda := a } p.id] at hwaits
          rw [watch_of_stock (stock_armDeadline _ p now), hforget]
          refine .early hpop he hmem ?_ hwaits
          exact (isSome_accounts n p.link).symm.trans (h.orderly.up nextHop p hmem)
  · rename_i hcontains
    have hnone : ∀ l, n.clock.noted (.deadline l packet) = none := fun l =>
      noted_deadline_eq_none fun id hfind => hcontains (by
        rw [Table.contains_eq_isSome, hfind]
        rfl)
    have hidle : Watch.Step n.watch
        { n.watch with clock := { n.clock with agenda := a }.forget packet } :=
      .idle hpop he (.inl hnone)
    rw [forget_eq_self (c := { n.clock with agenda := a }) hnone] at hidle
    exact hidle

end Node

end KeyReserve
