/-!
# Words that stop at the ends of their range

Byte counts and times are 64-bit words, hop counts are 8-bit words. Where a sum, a product or a
difference could leave the range it stays at the nearest end of it instead of wrapping around.

## Main definitions

* `UInt64.addSat`, `UInt64.mulSat`, `UInt64.subSat`: the three saturating operations;
* `UInt8.succSat`: one more, up to 255.

## Main results

* `UInt64.toNat_addSat`, `UInt64.toNat_mulSat`, `UInt64.toNat_subSat`: each operation is the exact
  one on natural numbers, cut at the end of the range;
* `UInt8.succSat_eq`: the same of the hop count.
-/

namespace UInt64

/-- The sum, or the greatest word where the sum is greater. -/
def addSat (a b : UInt64) : UInt64 := .ofNat (min (a.toNat + b.toNat) (UInt64.size - 1))

/-- The product, or the greatest word where the product is greater. -/
def mulSat (a b : UInt64) : UInt64 := .ofNat (min (a.toNat * b.toNat) (UInt64.size - 1))

/-- The difference, or zero where it is negative. -/
def subSat (a b : UInt64) : UInt64 := .ofNat (a.toNat - b.toNat)

theorem toNat_addSat (a b : UInt64) :
    (a.addSat b).toNat = min (a.toNat + b.toNat) (UInt64.size - 1) :=
  UInt64.toNat_ofNat_of_lt' (by rw [UInt64.size]; omega)

theorem toNat_mulSat (a b : UInt64) :
    (a.mulSat b).toNat = min (a.toNat * b.toNat) (UInt64.size - 1) :=
  UInt64.toNat_ofNat_of_lt' (by rw [UInt64.size]; omega)

theorem toNat_subSat (a b : UInt64) : (a.subSat b).toNat = a.toNat - b.toNat :=
  UInt64.toNat_ofNat_of_lt' (by have := a.toNat_lt; simp [UInt64.size]; omega)

end UInt64

namespace UInt8

/-- One more, or 255 where there is no more. -/
def succSat (a : UInt8) : UInt8 := if a = 255 then 255 else a + 1

theorem succSat_eq (a : UInt8) : a.succSat = .ofNat (min (a.toNat + 1) 255) := by
  have ha := a.toNat_lt
  unfold succSat
  split
  · rename_i h
    rw [h]
    rfl
  · rename_i h
    have hne : a.toNat ≠ 255 := fun hn => h (UInt8.toNat_inj.1 hn)
    refine UInt8.toNat_inj.1 ?_
    rw [UInt8.toNat_add, UInt8.toNat_ofNat_of_lt' (by rw [UInt8.size]; omega)]
    show (a.toNat + 1) % 256 = _
    omega

end UInt8

namespace KeyReserve

/-- An amount of key material or of data, in bytes. -/
abbrev Bytes := UInt64

/-- A point of simulated time, or a span of it, in milliseconds. -/
abbrev Millis := UInt64

end KeyReserve
