import KeyReserve.Proofs.Run

/-!
# The ledger of key material

Key material comes into a buffer by charging and leaves it by payment for packets, and both are
counted on the link. On every node, after any calls, the level of a buffer and what has been
consumed make the level that the link was established with and what has been charged.

## Main definitions

* `KeyBuffer.Exact`: the arithmetic on a buffer is the one on natural numbers.

## Main results

* `KeyBuffer.exact`: on no buffer does a sum or a difference leave the range of words;
* `Node.keyLedger`: the bounds and the ledger of each link that is up.
-/

namespace KeyReserve

/-- Every sum and difference on the buffer is the exact one: none wraps around. -/
structure KeyBuffer.Exact (b : KeyBuffer) : Prop where
  available : b.available.toNat + b.minimum.toNat = b.current.toNat
  headroom : b.headroom.toNat + b.current.toNat = b.maximum.toNat
  debit : ∀ amount left crossing, b.debit amount = .ok (left, crossing) →
    left.current.toNat + amount.toNat = b.current.toNat
  credit : ∀ amount,
    (b.credit amount).1.current.toNat = b.current.toNat + (b.credit amount).2.applied.toNat

theorem KeyBuffer.exact (b : KeyBuffer) : b.Exact where
  available := by
    have hmin := UInt64.le_iff_toNat_le.1 b.minimum_le_current
    rw [toNat_available]
    omega
  headroom := by
    have hmax := UInt64.le_iff_toNat_le.1 b.current_le_maximum
    rw [toNat_headroom]
    omega
  debit _ _ _ h := toNat_debit h
  credit := b.toNat_credit_eq_add

theorem KeyBuffer.ofBounds_eq_ok {bounds : Bounds} {b : KeyBuffer} (h : ofBounds bounds = .ok b) :
    b.minimum = bounds.minimum ∧ b.threshold = bounds.threshold ∧ b.maximum = bounds.maximum ∧
      b.current = bounds.initial := by
  unfold ofBounds at h
  split at h
  · cases h
    exact ⟨rfl, rfl, rfl, rfl⟩
  · cases h

namespace Node

/-- On a node made from any configuration and driven by any calls, each link that is up has come up
in one of them, with bounds that the call offered. Its buffer still has these bounds and keeps to
them, and its level with all that was consumed is the first level with all that was charged. -/
theorem keyLedger {config : Config} {t : Transport} {n : Node} (hn : create config t = .ok n)
    (calls : List Call) {key : LinkKey} {l : Link}
    (hl : (n.run calls).links.find? key = some l) :
    (l.buffer.minimum ≤ l.buffer.current ∧ l.buffer.current ≤ l.buffer.maximum) ∧
    (l.buffer.minimum ≤ l.buffer.threshold ∧ l.buffer.threshold ≤ l.buffer.maximum) ∧
    (∃ before c after bounds, calls = before ++ c :: after ∧ n.UpSince key before c after ∧
      c.Offers (n.run before) key bounds ∧ l.buffer.minimum = bounds.minimum ∧
      l.buffer.threshold = bounds.threshold ∧ l.buffer.maximum = bounds.maximum ∧
      l.buffer.current.toNat + l.stats.keyBytesConsumed =
        bounds.initial.toNat + l.stats.keyBytesCharged) ∧
    ∀ b : KeyBuffer, b.Exact := by
  refine ⟨⟨l.buffer.minimum_le_current, l.buffer.current_le_maximum⟩,
    ⟨l.buffer.minimum_le_threshold, l.buffer.threshold_le_maximum⟩, ?_, KeyBuffer.exact⟩
  obtain ⟨before, c, after, bounds, expired, handed, rfl, hs, hbooks⟩ := exists_books hn hl
  obtain ⟨buffer, now, l', hbounds, hl', hbooked⟩ := hbooks.booked
  obtain rfl : l.account = l' := Option.some.inj ((accounts_of_find? _ hl).symm.trans hl')
  obtain ⟨hmin, hthr, hmax, hinit⟩ := KeyBuffer.ofBounds_eq_ok hbounds
  refine ⟨before, c, after, bounds, rfl, hs, hbooks.offers, hbooked.minimum.trans hmin,
    hbooked.threshold.trans hthr, hbooked.maximum.trans hmax, ?_⟩
  have hopening := hbooked.opening
  simp only [Link.openingLevel, hinit] at hopening
  have hblank : (({} : LinkStats).keyBytesConsumed : Int) = 0 := rfl
  show l.account.buffer.current.toNat + l.account.stats.keyBytesConsumed = _ +
    l.account.stats.keyBytesCharged
  omega

theorem keyLedger_pairRun : ∃ n l, create .pair .accepting = .ok n ∧
    (n.run Call.pairRun).links.find? (.join ⟨1⟩ ⟨2⟩) = some l ∧ l.buffer.current = 43 ∧
    ∃ before c after bounds, Call.pairRun = before ++ c :: after ∧
      n.UpSince (.join ⟨1⟩ ⟨2⟩) before c after ∧
      c.Offers (n.run before) (.join ⟨1⟩ ⟨2⟩) bounds ∧ l.buffer.minimum = bounds.minimum ∧
      l.buffer.threshold = bounds.threshold ∧ l.buffer.maximum = bounds.maximum ∧
      l.buffer.current.toNat + l.stats.keyBytesConsumed =
        bounds.initial.toNat + l.stats.keyBytesCharged := by
  obtain ⟨n, hn, hlevel⟩ : ∃ n, create .pair .accepting = .ok n ∧
      ((n.run Call.pairRun).links.find? (.join ⟨1⟩ ⟨2⟩)).map (·.buffer.current) = some 43 :=
    ⟨_, rfl, by decide +kernel⟩
  obtain ⟨l, hl, hcurrent⟩ := Option.map_eq_some_iff.1 hlevel
  exact ⟨n, l, hn, hl, hcurrent, (keyLedger hn _ hl).2.2.1⟩

end Node

end KeyReserve
