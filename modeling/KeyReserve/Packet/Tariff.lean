import KeyReserve.Packet.Basic

/-!
# The price of a packet

A packet costs the key bytes of its cipher and those of its authentication tag. A one-time pad is
paid by the byte, a block cipher by the key.

## Main definitions

* `Tariff`, `Tariff.price`: the modes with their prices, and what a payload costs;
* `Tariff.exactPrice`: the same without the limit of a word.

## Main results

* `Tariff.toNat_price`: the price is the exact one, cut at the greatest word.
-/

namespace KeyReserve

/-- The modes in use and what they cost. -/
structure Tariff where
  encryption : Encryption
  authentication : Authentication
  /-- Key bytes for each payload byte under a one-time pad. -/
  otpBytesPerByte : Bytes
  aesKeyBytes : Bytes
  authTagBytes : Bytes
  deriving DecidableEq, Inhabited

namespace Tariff

/-- The key bytes of the cipher. -/
def cipherPrice (t : Tariff) (payload : UInt32) : Bytes :=
  match t.encryption with
  | .plain => 0
  | .oneTimePad => payload.toUInt64.mulSat t.otpBytesPerByte
  | .aes256 => t.aesKeyBytes

/-- The key bytes of the authentication tag. -/
def tagPrice (t : Tariff) : Bytes :=
  match t.authentication with
  | .untagged => 0
  | .vmac => t.authTagBytes

/-- The key bytes that a payload costs. -/
def price (t : Tariff) (payload : UInt32) : Bytes := (t.cipherPrice payload).addSat t.tagPrice

/-- The key bytes that a payload costs, as a natural number. -/
def exactPrice (t : Tariff) (payload : UInt32) : Nat :=
  (match t.encryption with
    | .plain => 0
    | .oneTimePad => payload.toNat * t.otpBytesPerByte.toNat
    | .aes256 => t.aesKeyBytes.toNat) +
  (match t.authentication with
    | .untagged => 0
    | .vmac => t.authTagBytes.toNat)

theorem toNat_price (t : Tariff) (payload : UInt32) :
    (t.price payload).toNat = min (t.exactPrice payload) (UInt64.size - 1) := by
  have htag : t.tagPrice.toNat =
      match t.authentication with
      | .untagged => 0
      | .vmac => t.authTagBytes.toNat := by
    unfold tagPrice
    split <;> rfl
  -- a sum cut twice is the sum cut once
  rw [price, UInt64.toNat_addSat, exactPrice, htag]
  unfold cipherPrice
  split
  · rfl
  · rw [UInt64.toNat_mulSat, UInt32.toNat_toUInt64]
    omega
  · rfl

end Tariff

end KeyReserve
