import KeyReserve.Proofs.RecordRuns
import KeyReserve.Proofs.SessionRecord

/-!
# The record of charging

The log of a link, from the call in which the link came up, tells its charging session by session.
A session is open at the end of it exactly where the charger has one open, and those that have ended
are those counted on the link. What fitted of the deliveries of a session is what has been charged on
its link since it was opened.

## Main definitions

* `Node.ChargedSince`: what has been charged on a link since a session was opened.

## Main results

* `Reserve.session_of_changed`, `Reserve.delivers_of_completed`: what a call delivers to a session;
* `Node.chargedSince_session`: an open session knows what was charged since it was opened;
* `Node.chargingRecord`: what the log of a run tells of charging.
-/

namespace KeyReserve

variable {key : LinkKey}

namespace Reserve

variable {offered : LinkKey → Bounds → Prop} {r t u : Reserve} {es fs : List Event}

/-! ## What is charged in a session -/

/-- Nothing is charged in single steps. -/
theorem charged_of_step (hs : Step offered r es u) : u.charged key = r.charged key := by
  cases hs with
  | noted | opened => rfl
  | @abandoned k s hs reason =>
    refine counted_withMeter (m := r.meters k) rfl ?_
    cases r.meters k <;> rfl
  | raised hm ho hb => exact counted_withMeter hm rfl

theorem charged_of_steps (hs : Steps offered r es u) : u.charged key = r.charged key := by
  induction hs with
  | refl => rfl
  | step _ hstep ih => exact (charged_of_step hstep).trans ih

theorem charged_of_paid (hp : Paid offered r es u) : u.charged key = r.charged key := by
  cases hp with
  | debited hm _ hs _ => exact (charged_of_steps hs).trans (counted_withMeter hm rfl)

/-- A session has been opened on the link, and nothing has been charged in it yet. -/
def Opens (key : LinkKey) (s : Session) (es : List Event) : Prop :=
  (∃ target, .chargingStarted key s.id target ∈ es) ∧ s.applied = 0

/-- A session that is open after steps in a row was open before, or has been opened in them. -/
theorem session_of_steps (hs : Steps offered r es u) {s : Session} (hopen : u.sessions key = some s) :
    r.sessions key = some s ∨ Opens key s es := by
  induction hs with
  | refl => exact .inl hopen
  | @step t u es fs hs hstep ih =>
    have hkept : t.sessions key = some s → r.sessions key = some s ∨ Opens key s (es ++ fs) := by
      intro h
      rcases ih h with h | ⟨⟨target, hmem⟩, happlied⟩
      · exact .inl h
      · exact .inr ⟨⟨target, List.mem_append_left _ hmem⟩, happlied⟩
    cases hstep with
    | noted | raised => exact hkept hopen
    | @opened k m hm hlow hidle target now =>
      by_cases hk : key = k
      · subst hk
        obtain rfl := Option.some.inj ((if_pos rfl).symm.trans hopen)
        exact .inr ⟨⟨target, List.mem_append_right _ List.mem_cons_self⟩, rfl⟩
      · exact hkept ((if_neg hk).symm.trans hopen)
    | @abandoned k s' hs' reason =>
      by_cases hk : key = k
      · cases (if_pos hk).symm.trans hopen
      · exact hkept ((if_neg hk).symm.trans hopen)

/-- What a call delivers to an open session of a link: it has this much more applied, and so has
what is charged on the link. -/
structure Delivers (key : LinkKey) (r : Reserve) (s : Session) (applied bytes : Bytes) (u : Reserve) :
    Prop where
  session : r.sessions key = some s
  applied : applied = s.applied.addSat bytes
  charged : u.charged key = r.charged key + bytes.toNat

theorem charged_credit {k : LinkKey} {m m' : Meter} {s : Option Session} {bytes : Bytes}
    (hm : r.meters k = some m) (hm' : m'.charged = m.charged + bytes.toNat) :
    ((r.withMeter k (some m')).withSession k s).charged k = r.charged k + bytes.toNat := by
  rw [charged, counted, counted, hm,
    show ((r.withMeter k (some m')).withSession k s).meters k = some m' from if_pos rfl]
  exact hm'

/-- A session that is open after a call was open before and got what the call delivers, or has been
opened in the call. -/
theorem session_of_changed (hc : Changed offered r es u) {s : Session}
    (hopen : u.sessions key = some s) :
    (∃ s' bytes, s'.id = s.id ∧ Delivers key r s' s.applied bytes u) ∨
      Opens key s es ∧ u.charged key = r.charged key := by
  have hkept : r.sessions key = some s → u.charged key = r.charged key →
      ∃ s' bytes, s'.id = s.id ∧ Delivers key r s' s.applied bytes u := by
    intro hs hcharged
    refine ⟨s, 0, rfl, hs, ?_, hcharged⟩
    apply UInt64.toNat_inj.1
    have := s.applied.toNat_lt
    rw [UInt64.toNat_addSat, UInt64.size]
    simp only [UInt64.toNat_zero]
    omega
  cases hc with
  | moved hs =>
    rcases session_of_steps hs hopen with h | h
    · exact .inl (hkept h (charged_of_steps hs))
    · exact .inr ⟨h, charged_of_steps hs⟩
  | paid hp =>
    have hcharged : u.charged key = r.charged key := charged_of_paid hp
    cases hp with
    | debited _ _ hs _ =>
      rcases session_of_steps hs hopen with h | ⟨⟨target, hmem⟩, happlied⟩
      · exact .inl (hkept h hcharged)
      · exact .inr ⟨⟨⟨target, List.mem_append_right _ hmem⟩, happlied⟩, hcharged⟩
  | credited hc =>
    cases hc with
    | @goesOn k m s' hm hs bytes =>
      by_cases hk : key = k
      · subst hk
        obtain rfl := Option.some.inj ((if_pos rfl).symm.trans hopen)
        exact .inl ⟨s', _, rfl, hs, rfl, charged_credit hm rfl⟩
      · exact .inl (hkept ((if_neg hk).symm.trans hopen)
          (counted_withMeter_of_ne _ (Ne.symm hk) _))
    | @completed k m s' _ bytes hm hs hs' =>
      by_cases hk : key = k
      · cases (if_pos hk).symm.trans hopen
      · exact .inl (hkept ((if_neg hk).symm.trans hopen)
          (counted_withMeter_of_ne _ (Ne.symm hk) _))
  | closed hes hc =>
    rcases hc.links key with ⟨hm, hs⟩ | ⟨-, hdown⟩
    · exact .inl (hkept (hs.symm.trans hopen) (congrArg (Option.elim · 0 _) hm))
    · cases hdown.symm.trans hopen

/-- Single steps complete no session. -/
theorem not_completed_of_steps (hs : Steps offered r es u) (s : SessionId)
    (delivered applied : Bytes) : .chargingCompleted key s delivered applied ∉ es := by
  induction hs with
  | refl => exact List.not_mem_nil
  | step hs hstep ih =>
    intro hmem
    rcases List.mem_append.1 hmem with hmem | hmem
    · exact ih hmem
    · cases hstep with
      | noted he =>
        rw [← List.mem_singleton.1 hmem] at he
        cases he
      | opened | abandoned => cases List.mem_singleton.1 hmem
      | raised => cases hmem

/-- A call that completes a session delivers what was still missing to it. -/
theorem delivers_of_completed (hc : Changed offered r es u) {s : SessionId}
    {delivered applied : Bytes} (hmem : .chargingCompleted key s delivered applied ∈ es) :
    ∃ s' bytes, s'.id = s ∧ Delivers key r s' applied bytes u := by
  have hcrossing : ∀ k (x : Option Crossing), Event.chargingCompleted key s delivered applied ∉
      x.toList.map (.levelChanged k) := fun k x => not_mem_crossing fun y => nofun
  cases hc with
  | moved hs => exact absurd hmem (not_completed_of_steps hs s delivered applied)
  | paid hp =>
    cases hp with
    | debited _ _ hs _ =>
      rcases List.mem_append.1 hmem with hmem | hmem
      · exact absurd hmem (hcrossing _ _)
      · exact absurd hmem (not_completed_of_steps hs s delivered applied)
  | credited hc =>
    cases hc with
    | goesOn =>
      rcases List.mem_append.1 hmem with hmem | hmem
      · exact absurd hmem (hcrossing _ _)
      · cases List.mem_singleton.1 hmem
    | @completed k m s' _ bytes hm hs hs' =>
      rcases List.mem_append.1 hmem with hmem | hmem
      · exact absurd hmem (hcrossing _ _)
      · cases List.mem_singleton.1 hmem
        exact ⟨s', _, rfl, hs, hs' ▸ rfl, charged_credit hm rfl⟩
  | closed hes _ => exact absurd (hes ▸ hmem) List.not_mem_nil

end Reserve

/-! ## Runs -/

namespace Node

open Reserve

/-- What has been charged on a link since it came up. -/
def charged (n : Node) (key : LinkKey) : Nat :=
  (n.links.find? key).elim 0 (·.stats.keyBytesCharged)

theorem charged_reserve (n : Node) (key : LinkKey) : n.reserve.charged key = n.charged key := by
  show ((n.links.find? key).map Link.meter).elim 0 _ = _
  cases hl : n.links.find? key <;> rw [charged, hl] <;> rfl

/-- The session has been opened in one of the calls, in which nothing was charged on its link, and
this much has been charged there since. -/
def ChargedSince (n : Node) (calls : List Call) (key : LinkKey) (s : SessionId) (growth : Nat) :
    Prop :=
  ∃ before c after target, calls = before ++ c :: after ∧
    .chargingStarted key s target ∈ (n.run before).told c ∧
    (n.run (before ++ [c])).charged key = (n.run before).charged key ∧
    (n.run calls).charged key = (n.run before).charged key + growth

variable {n : Node} {key : LinkKey}

theorem ChargedSince.concat {calls : List Call} {s : SessionId} {growth more : Nat}
    (h : n.ChargedSince calls key s growth) {c : Call}
    (hmore : (n.run (calls ++ [c])).charged key = (n.run calls).charged key + more) :
    n.ChargedSince (calls ++ [c]) key s (growth + more) := by
  obtain ⟨before, d, after, target, rfl, htold, hstill, hgrowth⟩ := h
  refine ⟨before, d, after ++ [c], target, ?_, htold, hstill, ?_⟩
  · rw [List.append_assoc, List.cons_append]
  · rw [hmore, hgrowth, Nat.add_assoc]

/-- An open session has been opened in one of the calls, and what fitted of its deliveries is what
has been charged on its link since. -/
theorem chargedSince_session (hnone : n.reserve.sessions key = none) (calls : List Call)
    {s : Session} (hs : (n.run calls).reserve.sessions key = some s) :
    ∃ growth, n.ChargedSince calls key s.id growth ∧
      s.applied.toNat = min growth (UInt64.size - 1) := by
  induction calls using List.reverseRecOn generalizing s with
  | nil => cases hnone.symm.trans hs
  | append_singleton cs c ih =>
    have hc := (n.run cs).changed c
    have hend : n.run (cs ++ [c]) = (n.run cs).apply c := n.run_concat cs c
    rw [← hend] at hc
    rcases session_of_changed hc hs with ⟨s', bytes, hid, hd⟩ | ⟨⟨⟨target, hmem⟩, happlied⟩, hstill⟩
    · obtain ⟨growth, hsince, happlied⟩ := ih hd.session
      have hcharged := hd.charged
      rw [charged_reserve, charged_reserve] at hcharged
      refine ⟨growth + bytes.toNat, hid ▸ hsince.concat hcharged, ?_⟩
      rw [hd.applied, UInt64.toNat_addSat, happlied]
      omega
    · rw [charged_reserve, charged_reserve] at hstill
      exact ⟨0, ⟨cs, c, [], target, rfl, hmem, hstill, hstill⟩, by rw [happlied]; rfl⟩

theorem numbered_run (n : Node) (calls : List Call) :
    Numbered n.reserve (n.log calls) (n.run calls).reserve := by
  induction calls generalizing n with
  | nil => exact .of_none rfl rfl
  | cons c cs ih => exact (Numbered.of_changed (n.changed c)).trans (ih _)

/-- From the call in which a link came up on, its record is in step with its sessions and counts. -/
theorem UpSince.accounted {before after : List Call} {c : Call} (hs : n.UpSince key before c after)
    (ha : n.reserve.Attended) :
    Accounted key (n.run (before ++ c :: after)).reserve ((n.run before).log (c :: after)) := by
  refine hs.record ha ?_ fun _ _ _ _ _ hc har _ hup h => h.of_changed har hup hc
  intro r es u hc har hdown hup
  have hblank : Accounted key r [] := by
    have hclosed : r.sessions key = none := by
      rw [← Option.not_isSome_iff_eq_none]
      intro hopen
      have := har key hopen
      rw [hdown] at this
      cases this
    rw [Accounted, openOn, ended, counted, hclosed, hdown]
    exact .blank
  exact hblank.of_changed har hup hc

/-- On a node made from any configuration and driven by any calls: sessions are opened in the order
of their numbers. Each link that is up has come up in one of the calls, and what has been recorded
of its charging from that call on is sessions, one after another. As many have ended as the link
has completed and abandoned, and one is open at the end just where the charger has it open. In a
session that is completed as much was applied as has been charged on the link since it was opened,
which a word holds unless the count of the link is greater than any word. -/
theorem chargingRecord {config : Config} {t : Transport} (hn : create config t = .ok n)
    (calls : List Call) :
    ((n.log calls).filterMap Event.opens?).Pairwise (· < ·) ∧
    (∀ key l, (n.run calls).links.find? key = some l →
      ∃ before c after, calls = before ++ c :: after ∧ n.UpSince key before c after ∧
        Sessions key (((n.run before).log (c :: after)).filter (·.charges key))
          (l.stats.sessionsCompleted + l.stats.sessionsAbandoned)
          (((n.run calls).charger.session? key).map (·.id)) ∧
        ((((n.run before).log (c :: after)).filter (·.charges key)).filterMap Event.opens?).length =
          l.stats.sessionsCompleted + l.stats.sessionsAbandoned +
            if ((n.run calls).charger.session? key).isSome then 1 else 0) ∧
    ∀ cs c key s delivered applied, calls = cs ++ [c] →
      .chargingCompleted key s delivered applied ∈ (n.run cs).told c →
      ∃ growth, n.ChargedSince calls key s growth ∧
        applied.toNat = min growth (UInt64.size - 1) ∧
        ((n.run calls).charged key < UInt64.size → applied.toNat = growth) := by
  refine ⟨(n.numbered_run calls).pairwise, ?_, ?_⟩
  · intro key l hl
    have hdown : n.links.contains key = false := by
      unfold create at hn
      split at hn <;> cases hn
      rfl
    have hup : (n.run calls).links.contains key = true := by
      rw [Table.contains_eq_isSome, hl, Option.isSome_some]
    obtain ⟨before, c, after, rfl, hs⟩ := exists_upSince hdown hup
    have haccounted := hs.accounted (attended_create hn)
    have hended : (n.run (before ++ c :: after)).reserve.ended key =
        l.stats.sessionsCompleted + l.stats.sessionsAbandoned := by
      rw [ended, counted, meters_of_find? _ hl]
      rfl
    have hopen : (n.run (before ++ c :: after)).reserve.openOn key =
        ((n.run (before ++ c :: after)).charger.session? key).map (·.id) := by
      show (((n.run (before ++ c :: after)).charger.session? key).map Session.untimed).map _ = _
      rw [Option.map_map]
      rfl
    rw [Accounted, hended, hopen] at haccounted
    refine ⟨before, c, after, rfl, hs, haccounted, ?_⟩
    rw [haccounted.length_opens, Option.isSome_map]
  · rintro cs c key s delivered applied rfl htold
    have hnone : n.reserve.sessions key = none := by
      unfold create at hn
      split at hn <;> cases hn
      rfl
    obtain ⟨s', bytes, rfl, hd⟩ := delivers_of_completed ((n.run cs).changed c) htold
    obtain ⟨growth, hsince, happlied⟩ := chargedSince_session hnone cs hd.session
    have hcharged := hd.charged
    rw [← run_concat, charged_reserve, charged_reserve] at hcharged
    have hall := hsince.concat hcharged
    have hcut : applied.toNat = min (growth + bytes.toNat) (UInt64.size - 1) := by
      rw [hd.applied, UInt64.toNat_addSat, happlied]
      omega
    refine ⟨growth + bytes.toNat, hall, hcut, ?_⟩
    intro hsmall
    obtain ⟨before, _, _, _, _, _, _, hgrowth⟩ := hall
    omega

theorem chargingRecord_pair : ∃ n, create .pair .accepting = .ok n ∧
    .chargingCompleted (.join ⟨1⟩ ⟨2⟩) ⟨1⟩ 70 70 ∈
      (n.run [.start 0, .chargeDelivered ⟨2⟩ 20 100]).told (.chargeDelivered ⟨2⟩ 50 200) ∧
    ∃ growth, n.ChargedSince
        ([.start 0, .chargeDelivered ⟨2⟩ 20 100] ++ [.chargeDelivered ⟨2⟩ 50 200])
        (.join ⟨1⟩ ⟨2⟩) ⟨1⟩ growth ∧ growth = 70 := by
  obtain ⟨n, hn, htold, hcharged⟩ : ∃ n, create .pair .accepting = .ok n ∧
      .chargingCompleted (.join ⟨1⟩ ⟨2⟩) ⟨1⟩ 70 70 ∈
        (n.run [.start 0, .chargeDelivered ⟨2⟩ 20 100]).told (.chargeDelivered ⟨2⟩ 50 200) ∧
      (n.run ([.start 0, .chargeDelivered ⟨2⟩ 20 100] ++
        [.chargeDelivered ⟨2⟩ 50 200])).charged (.join ⟨1⟩ ⟨2⟩) < UInt64.size :=
    ⟨_, rfl, by decide +kernel, by decide +kernel⟩
  obtain ⟨growth, hsince, -, hgrowth⟩ :=
    (chargingRecord hn _).2.2 _ _ (.join ⟨1⟩ ⟨2⟩) ⟨1⟩ 70 70 rfl htold
  exact ⟨n, hn, htold, growth, hsince, (hgrowth hcharged).symm⟩

end Node

end KeyReserve
