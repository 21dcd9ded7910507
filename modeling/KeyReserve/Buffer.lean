import KeyReserve.Word

/-!
# Key buffers

A key buffer is the pool of key material of one link. Traffic debits it and charging credits it;
both report when the level crosses the threshold below which the buffer is to be charged.

A debit that would cut into the floor is refused whole, and a credit past the capacity is cut to
what fits, so that `minimum ≤ current ≤ maximum` always holds.

## Main definitions

* `Bounds`: floor, threshold, capacity and first level, as they are configured;
* `KeyBuffer`, `KeyBuffer.ofBounds`: a buffer and its construction from bounds in order;
* `KeyBuffer.debit`, `KeyBuffer.credit`: the two changes of level.

## Main results

* `KeyBuffer.toNat_available`, `KeyBuffer.toNat_headroom`: both differences are the exact ones;
* `KeyBuffer.debit_eq_ok_iff`, `KeyBuffer.toNat_credit`: the level after a change.
-/

namespace KeyReserve

/-- The bounds of a buffer and the level that it starts with. -/
structure Bounds where
  minimum : Bytes
  threshold : Bytes
  maximum : Bytes
  initial : Bytes
  deriving DecidableEq, Inhabited

namespace Bounds

/-- The first level and the threshold both lie between floor and capacity. -/
def Ordered (b : Bounds) : Prop :=
  b.minimum ≤ b.initial ∧ b.initial ≤ b.maximum ∧ b.minimum ≤ b.threshold ∧ b.threshold ≤ b.maximum

instance (b : Bounds) : Decidable b.Ordered := by unfold Ordered; infer_instance

end Bounds

/-- The side of the threshold on which a level lies. -/
inductive Level where
  | sufficient
  | belowThreshold
  deriving DecidableEq, Inhabited

/-- The written form of a level. -/
def Level.text : Level → String
  | .sufficient => "sufficient"
  | .belowThreshold => "below-threshold"

/-- Why a buffer is not made or not debited. -/
inductive BufferError where
  /-- The bounds are out of order. -/
  | configuration (bounds : Bounds)
  /-- More was asked for than lies above the floor. -/
  | insufficient (requested available : Bytes)
  deriving DecidableEq

/-- The wording of a buffer error. -/
def BufferError.message : BufferError → String
  | .configuration b =>
    "configuration error: need minimum <= current <= maximum and threshold in [minimum, maximum] " ++
    s!"(minimum={b.minimum}, threshold={b.threshold}, maximum={b.maximum}, current={b.initial})"
  | .insufficient requested available =>
    s!"insufficient key material: requested {requested} bytes, {available} above the floor"

/-- A crossing of the threshold: the side arrived at, and the level there. -/
structure Crossing where
  level : Level
  current : Bytes
  deriving DecidableEq, Inhabited

/-- Whether the crossing went downwards. -/
def Crossing.isDrop (c : Crossing) : Bool := c.level = .belowThreshold

/-- The key material of one link. -/
structure KeyBuffer where
  minimum : Bytes
  threshold : Bytes
  maximum : Bytes
  current : Bytes
  minimum_le_current : minimum ≤ current
  current_le_maximum : current ≤ maximum
  minimum_le_threshold : minimum ≤ threshold
  threshold_le_maximum : threshold ≤ maximum
  deriving DecidableEq

namespace KeyBuffer

/-- The buffer with the given bounds, provided that they are in order. -/
def ofBounds (b : Bounds) : Except BufferError KeyBuffer :=
  if h : b.Ordered then
    .ok ⟨b.minimum, b.threshold, b.maximum, b.initial, h.1, h.2.1, h.2.2.1, h.2.2.2⟩
  else
    .error (.configuration b)

/-- What lies above the floor. -/
def available (b : KeyBuffer) : Bytes := b.current - b.minimum

/-- What still fits below the capacity. -/
def headroom (b : KeyBuffer) : Bytes := b.maximum - b.current

def isBelowThreshold (b : KeyBuffer) : Bool := b.current < b.threshold

def isFull (b : KeyBuffer) : Bool := b.current = b.maximum

/-- Whether the level is at the floor. -/
def isDepleted (b : KeyBuffer) : Bool := b.current = b.minimum

def level (b : KeyBuffer) : Level := if b.isBelowThreshold then .belowThreshold else .sufficient

/-- The crossing that leads from a level to the buffer as it is now, if there is one. -/
def crossingFrom (b : KeyBuffer) (before : Level) : Option Crossing :=
  if b.level = before then none else some ⟨b.level, b.current⟩

/-- Takes an amount out of the buffer, or nothing where it does not lie above the floor. -/
def debit (b : KeyBuffer) (amount : Bytes) : Except BufferError (KeyBuffer × Option Crossing) :=
  if h : amount ≤ b.available then
    let after : KeyBuffer :=
      { b with
        current := b.current - amount
        minimum_le_current := by
          have := b.minimum_le_current
          simp only [available] at h
          grind
        current_le_maximum := by
          have := b.minimum_le_current
          have := b.current_le_maximum
          simp only [available] at h
          grind }
    -- the crossing is told from the levels before and after
    .ok (after, after.crossingFrom b.level)
  else
    .error (.insufficient amount b.available)

/-- What a credit did: the part that fitted, and the crossing it led to. -/
structure Credited where
  applied : Bytes
  crossing : Option Crossing
  deriving DecidableEq

/-- The part of an amount that fits below the capacity. -/
def fitting (b : KeyBuffer) (amount : Bytes) : Bytes :=
  if amount ≤ b.headroom then amount else b.headroom

theorem fitting_le_headroom (b : KeyBuffer) (amount : Bytes) : b.fitting amount ≤ b.headroom := by
  unfold fitting
  split
  · assumption
  · exact UInt64.le_refl _

theorem toNat_fitting (b : KeyBuffer) (amount : Bytes) :
    (b.fitting amount).toNat = min amount.toNat b.headroom.toNat := by
  unfold fitting
  split <;> rename_i h <;> rw [UInt64.le_iff_toNat_le] at h <;> omega

/-- Puts as much of an amount into the buffer as fits. -/
def credit (b : KeyBuffer) (amount : Bytes) : KeyBuffer × Credited :=
  let after : KeyBuffer :=
    { b with
      current := b.current + b.fitting amount
      minimum_le_current := by
        have := b.minimum_le_current
        have := b.current_le_maximum
        have := b.fitting_le_headroom amount
        simp only [headroom] at this
        grind
      current_le_maximum := by
        have := b.current_le_maximum
        have := b.fitting_le_headroom amount
        simp only [headroom] at this
        grind }
  (after, ⟨b.fitting amount, after.crossingFrom b.level⟩)

/-! ## The exact amounts -/

theorem toNat_available (b : KeyBuffer) :
    b.available.toNat = b.current.toNat - b.minimum.toNat :=
  UInt64.toNat_sub_of_le _ _ b.minimum_le_current

theorem available_pos_iff (b : KeyBuffer) : 0 < b.available ↔ b.minimum < b.current := by
  rw [UInt64.lt_iff_toNat_lt, UInt64.lt_iff_toNat_lt, toNat_available]
  exact Nat.sub_pos_iff_lt

theorem toNat_headroom (b : KeyBuffer) :
    b.headroom.toNat = b.maximum.toNat - b.current.toNat :=
  UInt64.toNat_sub_of_le _ _ b.current_le_maximum

/-- A debit succeeds exactly when the amount lies above the floor, and then takes exactly it. -/
theorem debit_eq_ok_iff {b b' : KeyBuffer} {amount : Bytes} {c : Option Crossing} :
    b.debit amount = .ok (b', c) ↔
      amount ≤ b.available ∧ b'.minimum = b.minimum ∧ b'.threshold = b.threshold ∧
        b'.maximum = b.maximum ∧ b'.current = b.current - amount ∧ c = b'.crossingFrom b.level := by
  unfold debit
  split
  · rename_i h
    simp only [Except.ok.injEq, Prod.mk.injEq]
    constructor
    · rintro ⟨rfl, rfl⟩
      exact ⟨h, rfl, rfl, rfl, rfl, rfl⟩
    · obtain ⟨mn, th, mx, cu, _, _, _, _⟩ := b'
      rintro ⟨-, h1, h2, h3, h4, rfl⟩
      simp only at h1 h2 h3 h4
      subst h1 h2 h3 h4
      exact ⟨rfl, rfl⟩
  · rename_i h
    simp [h]

/-- The level after a credit, as an exact sum. -/
theorem toNat_credit (b : KeyBuffer) (amount : Bytes) :
    (b.credit amount).1.current.toNat = min (b.current.toNat + amount.toNat) b.maximum.toNat := by
  have hle := UInt64.le_iff_toNat_le.1 b.current_le_maximum
  have hmax := b.maximum.toNat_lt
  show (b.current + b.fitting amount).toNat = _
  rw [UInt64.toNat_add, toNat_fitting, toNat_headroom]
  omega

end KeyBuffer

end KeyReserve
