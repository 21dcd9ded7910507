/-!
# The ChaCha block function with twelve rounds

A block of sixteen words is made from a key of eight words and a counter: the input block is mixed
by six double rounds and added to itself word by word.

## Main definitions

* `ChaCha.block`: the block of a key and a counter.
-/

namespace KeyReserve

namespace ChaCha

/-- The sixteen words that the rounds work on. -/
abbrev Block := Vector UInt32 16

/-- Rotation to the left by less than a word. -/
def rotateLeft (x n : UInt32) : UInt32 := (x <<< n) ||| (x >>> (32 - n))

/-- The quarter round on four places of a block. -/
def quarterRound (v : Block) (a b c d : Fin 16) : Block :=
  let v := v.set a (v[a] + v[b])
  let v := v.set d (rotateLeft (v[d] ^^^ v[a]) 16)
  let v := v.set c (v[c] + v[d])
  let v := v.set b (rotateLeft (v[b] ^^^ v[c]) 12)
  let v := v.set a (v[a] + v[b])
  let v := v.set d (rotateLeft (v[d] ^^^ v[a]) 8)
  let v := v.set c (v[c] + v[d])
  v.set b (rotateLeft (v[b] ^^^ v[c]) 7)

/-- A round on the columns and one on the diagonals. -/
def doubleRound (v : Block) : Block :=
  let v := quarterRound v 0 4 8 12
  let v := quarterRound v 1 5 9 13
  let v := quarterRound v 2 6 10 14
  let v := quarterRound v 3 7 11 15
  let v := quarterRound v 0 5 10 15
  let v := quarterRound v 1 6 11 12
  let v := quarterRound v 2 7 8 13
  quarterRound v 3 4 9 14

/-- A number of double rounds. -/
def doubleRounds : Nat → Block → Block
  | 0, v => v
  | n + 1, v => doubleRounds n (doubleRound v)

/-- The input block: four fixed words, the key, the counter with its low half first, and zeros. -/
def input (key : Vector UInt32 8) (counter : UInt64) : Block :=
  #v[0x61707865, 0x3320646e, 0x79622d32, 0x6b206574,
    key[0], key[1], key[2], key[3], key[4], key[5], key[6], key[7],
    counter.toUInt32, (counter >>> 32).toUInt32, 0, 0]

/-- The output block of a key at a counter. -/
def block (key : Vector UInt32 8) (counter : UInt64) : Block :=
  (doubleRounds 6 (input key counter)).zipWith (· + ·) (input key counter)

end ChaCha

end KeyReserve
