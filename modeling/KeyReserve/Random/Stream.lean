import KeyReserve.Random.ChaCha

/-!
# Random streams

A random stream yields the words of consecutive ChaCha blocks. Its key is spread out of one 64-bit
value, and each stream of a run has a value of its own, mixed from the seed of the run and the
index of the stream.

## Main definitions

* `RandomStream.ofSeed`: the stream of the generator that is seeded with a value;
* `RandomStream.mix`: the value of a stream in a run;
* `RandomStream.ofRun`: the stream of an index in a run;
* `RandomStream.word`, `RandomStream.doubleWord`, `RandomStream.upTo`: the draws.
-/

namespace KeyReserve

/-- A place in the output of a generator. -/
structure RandomStream where
  key : Vector UInt32 8
  /-- The counter of the next block. -/
  counter : UInt64 := 0
  /-- The words of the last block that are still to be drawn. -/
  unread : List UInt32 := []
  deriving DecidableEq

namespace RandomStream

/-- The value from which the generator of a stream is seeded. The index is spread by an odd
factor, so that neighbouring streams are seeded far apart. -/
def mix (seed stream : UInt64) : UInt64 := seed ^^^ ((stream + 1) * 0x9E3779B97F4A7C15)

/-- One step of the generator that spreads a seed. -/
def spreadStep (state : UInt64) : UInt64 := state * 6364136223846793005 + 11634580027462260723

/-- The word that the spreading generator shows in a state: a mixed part of the state, rotated by
its five top bits. -/
def spreadWord (state : UInt64) : UInt32 :=
  let x := (((state >>> 18) ^^^ state) >>> 27).toUInt32
  let r := (state >>> 59).toUInt32
  (x >>> r) ||| (x <<< (32 - r))

/-- The key of a generator, spread out of its seed. -/
def spread (seed : UInt64) : Vector UInt32 8 :=
  let s0 := spreadStep seed
  let s1 := spreadStep s0
  let s2 := spreadStep s1
  let s3 := spreadStep s2
  let s4 := spreadStep s3
  let s5 := spreadStep s4
  let s6 := spreadStep s5
  let s7 := spreadStep s6
  #v[spreadWord s0, spreadWord s1, spreadWord s2, spreadWord s3,
    spreadWord s4, spreadWord s5, spreadWord s6, spreadWord s7]

/-- The stream of the generator that is seeded with a value, from its start. -/
def ofSeed (value : UInt64) : RandomStream := { key := spread value }

/-- The stream of an index in the run of a seed. -/
def ofRun (seed stream : UInt64) : RandomStream := ofSeed (mix seed stream)

/-- The next word. -/
def word (s : RandomStream) : UInt32 × RandomStream :=
  match s.unread with
  | w :: ws => (w, { s with unread := ws })
  | [] =>
    let block := ChaCha.block s.key s.counter
    (block[0], { s with counter := s.counter + 1, unread := block.toList.drop 1 })

/-- The next words, one for each member of a list. -/
def wordsFor {α : Type} : List α → RandomStream → List (α × UInt32) × RandomStream
  | [], s => ([], s)
  | x :: xs, s =>
    let (w, s) := s.word
    let (rest, s) := wordsFor xs s
    ((x, w) :: rest, s)

/-- The next two words, the first of them being the low half. -/
def doubleWord (s : RandomStream) : UInt64 × RandomStream :=
  let (low, s) := s.word
  let (high, s) := s.word
  (low.toUInt64 ||| (high.toUInt64 <<< 32), s)

/-- How far a word other than zero can be shifted to the left without losing a bit. -/
def leadingZeros (r : UInt64) : Nat := 63 - r.toNat.log2

/-- Draws until the low half of the product with the range lies in the zone in which each number
of the range has equally many draws, and gives the high half. The last draw allowed counts
whatever it is. -/
def drawInZone (range zone : UInt64) : Nat → RandomStream → UInt64 × RandomStream
  | 0, s => (0, s)
  | tries + 1, s =>
    let (v, s) := s.doubleWord
    let product := v.toNat * range.toNat
    let high := UInt64.ofNat (product / UInt64.size)
    if UInt64.ofNat product ≤ zone || tries = 0 then (high, s) else drawInZone range zone tries s

/-- How often a draw is made again. Each is refused with a chance below one half. -/
def maxDraws : Nat := 1024

/-- A number from zero up to and including a limit. -/
def upTo (limit : UInt64) (s : RandomStream) : UInt64 × RandomStream :=
  let range := limit + 1
  if range = 0 then
    -- every word is in the range
    s.doubleWord
  else
    drawInZone range ((range <<< UInt64.ofNat (leadingZeros range)) - 1) maxDraws s

theorem map_fst_wordsFor {α : Type} (xs : List α) (s : RandomStream) :
    (wordsFor xs s).1.map (·.1) = xs := by
  induction xs generalizing s with
  | nil => rfl
  | cons x xs ih => simp [wordsFor, ih]

end RandomStream

end KeyReserve
