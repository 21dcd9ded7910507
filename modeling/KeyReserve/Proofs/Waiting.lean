import KeyReserve.Proofs.Flow
import Mathlib.Logic.Relation

/-!
# Packets that wait

Packets leave a queue when its link is ready or their time is over. They are tried one by one, and
each of them is sent, keeps waiting or is dropped. A packet that has been paid for joins the queue
of its next hop, and leaves it at once if the transport disposes of it.

## Main definitions

* `Stock.Tried`, `Stock.Released`: what becomes of a packet that waits, and of several of them;
* `Stock.Dispatched`: what comes of a packet that is dispatched.

## Main results

* `Node.tries_linkReady`, `Node.tries_expireWaiting`: the ways out of a queue;
* `Stock.exists_released`: what becomes of packets that are tried one after the other;
* `Node.dispatched`, `Stock.Dispatched.flow`: the flow of a packet that has been paid for.
-/

namespace KeyReserve

/-- A link that has counted some more packets that have expired. -/
def Link.expired (l : Link) (times : Nat) : Link :=
  { l with stats := { l.stats with packetsExpired := l.stats.packetsExpired + times } }

theorem Link.expired_expired (l : Link) (a b : Nat) :
    (l.expired a).expired b = l.expired (a + b) := by
  simp only [expired, Nat.add_assoc]

namespace Stock

/-! ## A packet that waits -/

/-- A packet that waits has been tried at an instant. Past its bound it is dropped from where it
stands, counted and reported. Else it is handed over from the front of its queue, where it stays
if the transport is busy. -/
inductive Tried (now : Millis) (s : Stock) : Stock → Prop where
  | heldUp {p : SecuredPacket} {rest : List SecuredPacket} (hq : s.queue p.nextHop = p :: rest)
      (hage : p.expiry? now = none) (e : TransportError) (hb : e.isBusy = true) :
      Tried now s (s.handOver ⟨p, some e⟩)
  | settled {p : SecuredPacket} {rest : List SecuredPacket} (hq : s.queue p.nextHop = p :: rest)
      (hage : p.expiry? now = none) (failure : Option TransportError)
      (hb : HandOver.isBusy ⟨p, failure⟩ = false) :
      Tried now s ((s.withQueue p.nextHop rest).handOver ⟨p, failure⟩)
  | expired {p : SecuredPacket} {before after : List SecuredPacket} {e : DelayExceeded}
      (hq : s.queue p.nextHop = before ++ p :: after) (hage : p.expiry? now = some e) :
      Tried now s ((s.withQueue p.nextHop (before ++ after)).lose e)

/-- What has become of packets that waited, at an instant. Those handed over are within their
bounds; those dropped are past them, and each of these is reported and counted once. -/
structure Released (now : Millis) (s t : Stock) (expired : List SecuredPacket)
    (handed : List HandOver) (reports : List DelayExceeded) : Prop where
  flow : Flow s t [] expired handed
  timely : ∀ x ∈ handed, x.packet.expiry? now = none
  reported : t.expiries = s.expiries ++ reports
  overdue : List.Forall₂ (fun p e => p.expiry? now = some e) expired reports
  /-- Nothing else is counted, and no buffer changes. -/
  counted : ∀ key, t.accounts key =
    (s.accounts key).map (·.expired (expired.filter (·.link = key)).length)

variable {now : Millis} {s t u : Stock}

theorem Released.refl (now : Millis) (s : Stock) : Released now s s [] [] [] where
  flow := .refl s
  timely _ hx := absurd hx List.not_mem_nil
  reported := (List.append_nil _).symm
  overdue := .nil
  counted _ := Option.map_id'.symm

theorem Released.trans {e f : List SecuredPacket} {h k : List HandOver}
    {r q : List DelayExceeded} (hf : Released now s t e h r) (hg : Released now t u f k q) :
    Released now s u (e ++ f) (h ++ k) (r ++ q) where
  flow := hf.flow.trans hg.flow
  timely x hx := (List.mem_append.1 hx).elim (hf.timely x) (hg.timely x)
  reported := by rw [hg.reported, hf.reported, List.append_assoc]
  overdue := List.rel_append hf.overdue hg.overdue
  counted key := by
    rw [hg.counted, hf.counted, Option.map_map, List.filter_append, List.length_append]
    congr 1
    funext l
    exact l.expired_expired _ _

theorem Tried.released (h : Tried now s t) :
    ∃ expired handed reports, Released now s t expired handed reports := by
  have hhanded : ∀ (p : SecuredPacket) (failure : Option TransportError) (t : Stock),
      Flow s t [] [] [⟨p, failure⟩] → p.expiry? now = none → t.expiries = s.expiries →
      t.accounts = s.accounts → Released now s t [] [⟨p, failure⟩] [] := by
    intro p failure t hf hage hexpiries haccounts
    refine ⟨hf, ?_, hexpiries.trans (List.append_nil _).symm, .nil, fun key => ?_⟩
    · intro x hx
      rw [List.mem_singleton.1 hx]
      exact hage
    · rw [haccounts]
      exact Option.map_id'.symm
  cases h with
  | heldUp hq hage e hb =>
    exact ⟨[], _, [], hhanded _ (some e) _ (.heldUp (hq ▸ List.mem_cons_self) _ hb) hage rfl rfl⟩
  | settled hq hage failure hb =>
    exact ⟨[], _, [], hhanded _ failure _ (.handOver (.of_eq hq) _ hb) hage rfl rfl⟩
  | @expired p before after e hq hage =>
    refine ⟨[p], [], [e], .expire ((List.Perm.of_eq hq).trans List.perm_middle) hage, ?_, rfl,
      .cons hage .nil, ?_⟩
    · intro x hx
      cases hx
    · intro key
      show (if key = e.link then _ else _ : Option Link) = _
      rw [p.link_of_expiry? hage]
      by_cases hk : key = p.link
      · rw [if_pos hk, List.filter_cons_of_pos (by simp [hk])]
        rfl
      · rw [if_neg hk, List.filter_cons_of_neg (by simpa using fun h => hk h.symm)]
        exact Option.map_id'.symm

/-- What becomes of packets that are tried one after the other. -/
theorem exists_released (h : Relation.ReflTransGen (Tried now) s t) :
    ∃ expired handed reports, Released now s t expired handed reports := by
  induction h with
  | refl => exact ⟨[], [], [], .refl now s⟩
  | tail _ step ih =>
    obtain ⟨e, h, r, hf⟩ := ih
    obtain ⟨f, k, q, hg⟩ := step.released
    exact ⟨_, _, _, hf.trans hg⟩

end Stock

namespace Node

variable (n : Node)

theorem queue_setQueue (hop h : NodeId) (ps : List SecuredPacket) :
    (n.setQueue hop ps).queue h = if h = hop then ps else n.queue h := by
  unfold setQueue queue
  simp only
  split
  · rename_i hps
    rw [Table.find?_erase, List.isEmpty_iff.1 hps]
    split <;> rfl
  · rw [Table.find?_insert]
    split <;> rfl

@[simp] theorem stock_setQueue (hop : NodeId) (ps : List SecuredPacket) :
    (n.setQueue hop ps).stock = n.stock.withQueue hop ps := by
  have hq : (n.setQueue hop ps).queue = fun h => if h = hop then ps else n.queue h :=
    funext fun h => n.queue_setQueue hop h ps
  simp only [stock, Stock.withQueue, hq]
  rfl

@[simp] theorem stock_recordExpired (e : DelayExceeded) :
    (n.recordExpired e).stock = n.stock.lose e := by
  have hx : (n.recordExpired e).expiries = n.expiries ++ [e] := by
    simp [expiries, recordExpired, record, count, List.filterMap_append, Event.expiry?]
  have hl : ∀ key, ((n.recordExpired e).links.find? key).map Link.account =
      if key = e.link then ((n.links.find? key).map Link.account).map
          fun l => { l with stats := l.stats.expired }
      else (n.links.find? key).map Link.account := by
    intro key
    show ((n.links.modify e.link _).find? key).map Link.account = _
    rw [Links.find?_modify]
    split
    · rename_i hk
      rw [hk, Option.map_map, Option.map_map]
      rfl
    · rfl
  simp only [stock, Stock.lose, hx, hl]
  rfl

@[simp] theorem stock_submit_secured (p : SecuredPacket) :
    (n.submit (.secured p)).2.stock =
      n.stock.handOver ⟨p, (n.submit (.secured p)).1⟩ := by
  have hh : (n.submit (.secured p)).2.handOvers =
      n.handOvers ++ [⟨p, (n.submit (.secured p)).1⟩] := by
    simp [handOvers, submit, Transport.submit, List.filterMap_append, Exchange.handOver?]
  have hp : (n.submit (.secured p)).2.plainSends = n.plainSends := by
    simp [plainSends, submit, Transport.submit, List.filterMap_append, Exchange.plain?]
  simp only [stock, Stock.handOver, hh, hp]
  rfl

/-- Packets are tried one by one, from the front of their queue. -/
theorem tries_sendWaiting (hop : NodeId) (now : Millis) {ps : List SecuredPacket}
    (hps : ∀ p ∈ ps, p.nextHop = hop) :
    Relation.ReflTransGen (Stock.Tried now) (n.stock.withQueue hop ps)
      ((n.sendWaiting now ps).2.2.stock.withQueue hop (n.sendWaiting now ps).2.1) := by
  induction ps generalizing n with
  | nil => exact .refl
  | cons p ps ih =>
    obtain rfl : p.nextHop = hop := hps p List.mem_cons_self
    have hrest : ∀ m : Node,
        Stock.Tried now (n.stock.withQueue p.nextHop (p :: ps)) (m.stock.withQueue p.nextHop ps) →
        Relation.ReflTransGen (Stock.Tried now) (n.stock.withQueue p.nextHop (p :: ps))
          ((m.sendWaiting now ps).2.2.stock.withQueue p.nextHop (m.sendWaiting now ps).2.1) :=
      fun m step => .head step (ih m fun q hq => hps q (List.mem_cons_of_mem p hq))
    have hq : (n.stock.withQueue p.nextHop (p :: ps)).queue p.nextHop = p :: ps := by
      rw [Stock.withQueue_queue, if_pos rfl]
    rw [sendWaiting]
    cases he : p.expiry? now with
    | some e =>
      have step := @Stock.Tried.expired _ _ _ [] _ _ hq he
      rw [Stock.withQueue_withQueue] at step
      refine hrest ((n.disarmDeadline p.id).recordExpired e) ?_
      rw [stock_recordExpired, stock_disarmDeadline]
      exact step
    | none =>
      have hs := n.stock_submit_secured p
      simp only
      split
      · rename_i m hm
        rw [hm] at hs
        have step := Stock.Tried.settled hq he none rfl
        rw [Stock.withQueue_withQueue] at step
        refine hrest (m.disarmDeadline p.id) ?_
        rw [stock_disarmDeadline, hs]
        exact step
      · rename_i e m hm
        rw [hm] at hs
        split
        · rename_i hb
          simp only
          rw [hs]
          exact .single (.heldUp hq he e hb)
        · rename_i hb
          have step := Stock.Tried.settled hq he (some e) (Bool.eq_false_iff.2 hb)
          rw [Stock.withQueue_withQueue] at step
          refine hrest (m.disarmDeadline p.id) ?_
          rw [stock_disarmDeadline, hs]
          exact step

theorem tries_linkReady (ho : n.stock.Orderly) (hop : NodeId) (now : Millis) :
    Relation.ReflTransGen (Stock.Tried now) n.stock (n.linkReady hop now).2.stock := by
  have h := (n.setQueue hop []).tries_sendWaiting hop now (ho.nextHop hop)
  rw [stock_setQueue, Stock.withQueue_withQueue, Stock.withQueue_self] at h
  exact (stock_setQueue _ hop _).symm ▸ h

theorem tries_expireWaiting (ho : n.stock.Orderly) (link : LinkKey) (packet : PacketId)
    (now : Millis) :
    Relation.ReflTransGen (Stock.Tried now) n.stock (n.expireWaiting link packet now).stock := by
  unfold expireWaiting
  split
  · simp only
    split
    · exact .refl
    · rename_i nextHop _
      split
      · exact .refl
      · rename_i p hp
        obtain ⟨hid, before, after, hq, hbefore⟩ := List.find?_eq_some_iff_append.1 hp
        have herase : (n.queue nextHop).eraseP (fun q => q.id = packet) = before ++ after := by
          refine (congrArg _ hq).trans ?_
          rw [List.eraseP_append_right _ (by simpa using hbefore), List.eraseP_cons, hid]
          rfl
        replace hq : n.stock.queue nextHop = before ++ p :: after := hq
        obtain rfl : p.nextHop = nextHop := by
          refine ho.nextHop nextHop p ?_
          rw [hq]
          exact List.mem_append_right _ List.mem_cons_self
        split
        · rename_i e he
          rw [stock_recordExpired, stock_setQueue]
          have step := Stock.Tried.expired hq he
          rw [← herase] at step
          exact .single step
        · rw [stock_armDeadline]
          exact .refl
  · exact .refl

end Node

namespace Stock

/-! ## A packet that has been paid for -/

/-- What comes of a packet that is dispatched, with the stock afterwards. -/
inductive Dispatched (s : Stock) (p : SecuredPacket) : Except NodeError SendOutcome → Stock → Prop where
  | sent (hq : s.queue p.nextHop = []) :
      Dispatched s p (.ok (.sent p.nextHop p.cost)) (s.handOver ⟨p, none⟩)
  | refused (hq : s.queue p.nextHop = []) (e : TransportError) (hb : e.isBusy = false) :
      Dispatched s p (.error (.transport e)) (s.handOver ⟨p, some e⟩)
  | heldUp (hq : s.queue p.nextHop = []) (e : TransportError) (hb : e.isBusy = true) :
      Dispatched s p (.ok (.queued p.nextHop p.cost))
        ((s.handOver ⟨p, some e⟩).withQueue p.nextHop [p])
  | behind (hq : s.queue p.nextHop ≠ []) :
      Dispatched s p (.ok (.queued p.nextHop p.cost))
        (s.withQueue p.nextHop (s.queue p.nextHop ++ [p]))

/-- The fate of a packet changes no account and sends nothing unsecured. -/
theorem Dispatched.frame {s t : Stock} {p : SecuredPacket} {r : Except NodeError SendOutcome}
    (h : s.Dispatched p r t) : t.accounts = s.accounts ∧ t.plainSends = s.plainSends := by
  cases h <;> exact ⟨rfl, rfl⟩

/-- Nothing but the packet itself is handed over. -/
theorem Dispatched.handed {s t : Stock} {p : SecuredPacket} {r : Except NodeError SendOutcome}
    (h : s.Dispatched p r t) :
    ∃ handed, t.handOvers = s.handOvers ++ handed ∧ ∀ x ∈ handed, x.packet = p := by
  have hsingle : ∀ failure, ∀ x ∈ [(⟨p, failure⟩ : HandOver)], x.packet = p := fun failure x hx => by
    rw [List.mem_singleton.1 hx]
  cases h with
  | sent _ => exact ⟨_, rfl, hsingle none⟩
  | refused _ e _ => exact ⟨_, rfl, hsingle (some e)⟩
  | heldUp _ e _ => exact ⟨_, rfl, hsingle (some e)⟩
  | behind _ => exact ⟨[], (List.append_nil _).symm, nofun⟩

theorem Dispatched.outcome {s t : Stock} {p : SecuredPacket} {r : Except NodeError SendOutcome}
    (h : s.Dispatched p r t) :
    (r = .ok (.sent p.nextHop p.cost) ∧ t.handOvers = s.handOvers ++ [⟨p, none⟩]) ∨
      (r = .ok (.queued p.nextHop p.cost) ∧ t.queue p.nextHop = s.queue p.nextHop ++ [p]) ∨
      ∃ e, e.isBusy = false ∧ r = .error (.transport e) ∧
        t.handOvers = s.handOvers ++ [⟨p, some e⟩] := by
  cases h with
  | sent _ => exact .inl ⟨rfl, rfl⟩
  | refused _ e hb => exact .inr (.inr ⟨e, hb, rfl, rfl⟩)
  | heldUp hq _ _ =>
    refine .inr (.inl ⟨rfl, ?_⟩)
    rw [hq]
    exact if_pos rfl
  | behind _ => exact .inr (.inl ⟨rfl, if_pos rfl⟩)

/-- A packet that is dispatched joins the queue of its next hop, and leaves it at once if the
transport disposes of it. -/
theorem Dispatched.flow {s t : Stock} {p : SecuredPacket} {r : Except NodeError SendOutcome}
    (h : s.Dispatched p r t) :
    ∃ handed, Flow (s.withQueue p.nextHop (s.queue p.nextHop ++ [p])) t [] [] handed := by
  have hself : s.queue p.nextHop = [] → s.withQueue p.nextHop [] = s := fun hq => by
    rw [← hq]
    exact s.withQueue_self p.nextHop
  have hperm : s.queue p.nextHop = [] →
      ((s.withQueue p.nextHop (s.queue p.nextHop ++ [p])).queue p.nextHop).Perm [p] := by
    intro hq
    rw [withQueue_queue, if_pos rfl, hq]
    rfl
  cases h with
  | sent hq =>
    have hf := Flow.handOver (hperm hq) none rfl
    rw [withQueue_withQueue, hself hq] at hf
    exact ⟨_, hf⟩
  | refused hq e hb =>
    have hf := Flow.handOver (hperm hq) (some e) hb
    rw [withQueue_withQueue, hself hq] at hf
    exact ⟨_, hf⟩
  | heldUp hq e hb =>
    have hf := Flow.heldUp ((hperm hq).mem_iff.2 List.mem_cons_self) (some e) hb
    rw [hq] at hf ⊢
    exact ⟨_, hf⟩
  | behind hq => exact ⟨[], .refl _⟩

end Stock

namespace Node

variable (n : Node)

theorem stock_enqueue (p : SecuredPacket) :
    (n.enqueue p).stock = n.stock.withQueue p.nextHop (n.queue p.nextHop ++ [p]) := by
  have hs := n.stock_armDeadline p 0
  have hq : (n.armDeadline p 0).queue = n.queue := congrArg Stock.queue hs
  unfold enqueue
  simp only
  rw [stock_setQueue, hs, hq]

theorem dispatched (p : SecuredPacket) :
    n.stock.Dispatched p (n.dispatch p).1 (n.dispatch p).2.stock := by
  unfold dispatch
  split
  · rename_i hempty
    have hq := List.isEmpty_iff.1 hempty
    have hs := n.stock_submit_secured p
    split
    · rename_i m hm
      rw [hm] at hs
      rw [hs]
      exact .sent hq
    · rename_i e m hm
      rw [hm] at hs
      split
      · rename_i hb
        have hqm : m.queue = n.queue := congrArg Stock.queue hs
        rw [stock_enqueue, hs, hqm, hq]
        exact .heldUp hq e hb
      · rename_i hb
        rw [hs]
        exact .refused hq e (Bool.eq_false_iff.2 hb)
  · rename_i hne
    rw [stock_enqueue]
    exact .behind fun h => hne (List.isEmpty_iff.2 h)

end Node

end KeyReserve
