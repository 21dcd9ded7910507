import KeyReserve.Proofs.Payment

/-!
# Exact prices

The price of a packet is a word, and a price beyond the words is cut to the greatest of them. On all
links but one kind this makes no difference: a price that has been cut is more than they hold, so that
a packet is refused where its exact price is, and costs its exact price where it is not. Only a link
that has the greatest word above its floor can pay a price that has been cut, and then it pays that
word.

## Main definitions

* `Tariff.cutPrice`: the exact price, cut at the greatest word;
* `Link.Settles`: a link accepts a packet where it holds a price, and then pays exactly that price.

## Main results

* `Link.settles_cutPrice`: every link settles the cut price;
* `Link.settles_price`: which links settle the exact price;
* `Link.not_settles_brimming`: a link that does not.
-/

namespace KeyReserve

/-- The key bytes that a payload costs, but at most the greatest word. -/
def Tariff.cutPrice (t : Tariff) (payload : UInt32) : Nat :=
  min (t.exactPrice payload) (UInt64.size - 1)

namespace Link

/-- What lies above the floor of a link, as a number. -/
def room (l : Link) : Nat := l.buffer.current.toNat - l.buffer.minimum.toNat

/-- A link accepts a packet exactly where it has a price above its floor. It then pays the price, and
the packet says so; a refusal takes nothing out and hands the packet back. -/
structure Settles (l : Link) (key : LinkKey) (t : Tariff) (packet : Packet) (hop : NodeId)
    (price : Nat) : Prop where
  accepts : (∃ s, (l.secure key t packet hop).2 = .ok s) ↔ price ≤ l.room
  pays : ∀ s, (l.secure key t packet hop).2 = .ok s →
    (l.secure key t packet hop).1.buffer.current.toNat + price = l.buffer.current.toNat ∧
      s.packet.packet = packet ∧ s.packet.cost.toNat = price
  refuses : ∀ r, (l.secure key t packet hop).2 = .error r →
    (l.secure key t packet hop).1.buffer = l.buffer ∧ r.packet = packet

variable (l : Link) (key : LinkKey) (t : Tariff) (packet : Packet) (hop : NodeId)

theorem toNat_available_eq_room : l.buffer.available.toNat = l.room := l.buffer.toNat_available

theorem cutPrice_le_room_iff :
    t.cutPrice packet.payload ≤ l.room ↔ t.price packet.payload ≤ l.buffer.available := by
  rw [UInt64.le_iff_toNat_le, toNat_available_eq_room, Tariff.toNat_price, Tariff.cutPrice]

/-- Every link settles the price as it is cut. -/
theorem settles_cutPrice : l.Settles key t packet hop (t.cutPrice packet.payload) := by
  have hcost : (t.price packet.payload).toNat = t.cutPrice packet.payload := t.toNat_price _
  by_cases hle : t.price packet.payload ≤ l.buffer.available
  · obtain ⟨left, crossing, hdebit⟩ := KeyBuffer.exists_debit hle
    have hleft := KeyBuffer.toNat_debit hdebit
    refine ⟨?_, ?_, ?_⟩
    · rw [cutPrice_le_room_iff]
      simp [secure, hdebit, hle]
    · intro s hs
      simp only [secure, hdebit] at hs ⊢
      cases hs
      exact ⟨hcost ▸ hleft, rfl, hcost⟩
    · intro r hr
      simp only [secure, hdebit] at hr
      cases hr
  · have hdebit : l.buffer.debit (t.price packet.payload) =
        .error (.insufficient (t.price packet.payload) l.buffer.available) := dif_neg hle
    refine ⟨?_, ?_, ?_⟩
    · rw [cutPrice_le_room_iff]
      simp [secure, hdebit, hle]
    · intro s hs
      simp only [secure, hdebit] at hs
      cases hs
    · intro r hr
      simp only [secure, hdebit] at hr ⊢
      cases hr
      exact ⟨trivial, rfl⟩

theorem room_lt_size : l.room < UInt64.size :=
  Nat.lt_of_le_of_lt (Nat.sub_le _ _) l.buffer.current.toNat_lt

/-- A price within the words is not cut. One beyond them is refused, cut or not, where less than the
greatest word is above the floor. -/
theorem settles_of_lt (h : t.exactPrice packet.payload < UInt64.size ∨ l.room < UInt64.size - 1) :
    l.Settles key t packet hop (t.exactPrice packet.payload) := by
  have hcut := l.settles_cutPrice key t packet hop
  by_cases hwords : t.exactPrice packet.payload < UInt64.size
  · have heq : t.cutPrice packet.payload = t.exactPrice packet.payload :=
      Nat.min_eq_left (Nat.le_sub_one_of_lt hwords)
    rwa [heq] at hcut
  · have hroom := h.resolve_left hwords
    have hmax : t.cutPrice packet.payload = UInt64.size - 1 := by
      rw [Tariff.cutPrice]
      omega
    have hrefused : ¬∃ s, (l.secure key t packet hop).2 = .ok s := by
      rw [hcut.accepts, hmax]
      omega
    refine ⟨iff_of_false hrefused ?_, fun s hs => absurd ⟨s, hs⟩ hrefused, hcut.refuses⟩
    omega

/-- A link with the greatest word above its floor accepts every price that is cut, and so does not
settle a price beyond the words. -/
theorem lt_of_settles (h : l.Settles key t packet hop (t.exactPrice packet.payload)) :
    t.exactPrice packet.payload < UInt64.size ∨ l.room < UInt64.size - 1 := by
  by_contra hbeyond
  have haccepted : ∃ s, (l.secure key t packet hop).2 = .ok s := by
    rw [(l.settles_cutPrice key t packet hop).accepts, Tariff.cutPrice]
    omega
  have hle := h.accepts.1 haccepted
  have hroom := l.room_lt_size
  omega

/-- A link accepts a packet exactly where it has the cut price above its floor, and then pays that
price. This is the exact price on every link, unless the exact price is beyond the words and the link
has all of the greatest word above its floor. -/
theorem settles_price :
    l.Settles key t packet hop (t.cutPrice packet.payload) ∧
      (l.Settles key t packet hop (t.exactPrice packet.payload) ↔
        t.exactPrice packet.payload < UInt64.size ∨ l.room < UInt64.size - 1) :=
  ⟨l.settles_cutPrice key t packet hop, l.lt_of_settles key t packet hop,
    l.settles_of_lt key t packet hop⟩

/-- A link that holds the greatest word and may spend all of it. -/
def brimming : Link where
  buffer := ⟨0, 0, 18446744073709551615, 18446744073709551615, by decide, by decide, by decide,
    by decide⟩
  stats := {}
  establishedAt := 0

/-- A key of the greatest word together with a tag of one byte is more than any link can hold. Yet
this link accepts the packet. -/
theorem not_settles_brimming :
    ¬brimming.Settles (.join ⟨1⟩ ⟨2⟩) ⟨.aes256, .vmac, 0, 18446744073709551615, 1⟩
      ⟨⟨1⟩, ⟨2⟩, 1⟩ ⟨2⟩ (Tariff.exactPrice ⟨.aes256, .vmac, 0, 18446744073709551615, 1⟩ 1) := by
  intro hsettles
  have hle := hsettles.accepts.1 ⟨_, rfl⟩
  exact absurd hle (by decide)

end Link

end KeyReserve
