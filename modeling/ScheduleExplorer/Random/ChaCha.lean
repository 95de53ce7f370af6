import ScheduleExplorer.Random.Source

/-!
# The ChaCha stream with eight rounds

The default source. Its numbers are the output words of the ChaCha block function with eight
rounds, a 64-bit block counter that starts at zero and a zero nonce, under a key expanded from the
seed.
-/

namespace ScheduleExplorer

namespace ChaCha

/-- The sixteen words that the block function works on. -/
abbrev Words := Vector UInt32 16

/-- Rotates a word to the left. -/
def rotateLeft (word : UInt32) (amount : UInt32) : UInt32 :=
  (word <<< amount) ||| (word >>> (32 - amount))

/-- Mixes four of the words. -/
def quarterRound (a b c d : Fin 16) (w : Words) : Words :=
  let w := w.set a (w[a] + w[b])
  let w := w.set d (rotateLeft (w[d] ^^^ w[a]) 16)
  let w := w.set c (w[c] + w[d])
  let w := w.set b (rotateLeft (w[b] ^^^ w[c]) 12)
  let w := w.set a (w[a] + w[b])
  let w := w.set d (rotateLeft (w[d] ^^^ w[a]) 8)
  let w := w.set c (w[c] + w[d])
  w.set b (rotateLeft (w[b] ^^^ w[c]) 7)

/-- Two rounds: one over the columns and one over the diagonals. -/
def doubleRound (w : Words) : Words :=
  let w := quarterRound 0 4 8 12 w
  let w := quarterRound 1 5 9 13 w
  let w := quarterRound 2 6 10 14 w
  let w := quarterRound 3 7 11 15 w
  let w := quarterRound 0 5 10 15 w
  let w := quarterRound 1 6 11 12 w
  let w := quarterRound 2 7 8 13 w
  quarterRound 3 4 9 14 w

/-- The words before the rounds: constants, key, block counter and nonce. -/
def initial (key : Vector UInt32 8) (counter : UInt64) : Words :=
  #v[0x61707865, 0x3320646e, 0x79622d32, 0x6b206574,
    key[0], key[1], key[2], key[3], key[4], key[5], key[6], key[7],
    counter.toUInt32, (counter >>> 32).toUInt32, 0, 0]

/-- The output words of one block. -/
def block (key : Vector UInt32 8) (counter : UInt64) : Words :=
  let start := initial key counter
  let mixed := doubleRound (doubleRound (doubleRound (doubleRound start)))
  Vector.zipWith (· + ·) mixed start

/-- One step of the generator that expands a seed, and the key word it gives. -/
def expandStep (state : UInt64) : UInt32 × UInt64 :=
  let state := state * 6364136223846793005 + 11634580027462260723
  let word := (((state >>> 18) ^^^ state) >>> 27).toUInt32
  let rotation := (state >>> 59).toUInt32
  ((word >>> rotation) ||| (word <<< ((32 - rotation) % 32)), state)

/-- The key that a seed stands for. -/
def expandSeed (seed : UInt64) : Vector UInt32 8 :=
  let (k0, state) := expandStep seed
  let (k1, state) := expandStep state
  let (k2, state) := expandStep state
  let (k3, state) := expandStep state
  let (k4, state) := expandStep state
  let (k5, state) := expandStep state
  let (k6, state) := expandStep state
  let (k7, _) := expandStep state
  #v[k0, k1, k2, k3, k4, k5, k6, k7]

end ChaCha

/-- A position in the ChaCha stream of a seed. -/
structure ChaChaSource where
  seed : UInt64
  key : Vector UInt32 8
  /-- The number of the next block. -/
  counter : UInt64
  /-- The words of the current block that are still to be drawn. -/
  words : List UInt32

namespace ChaChaSource

/-- The beginning of the stream of a seed. -/
def ofSeed (seed : UInt64) : ChaChaSource :=
  { seed, key := ChaCha.expandSeed seed, counter := 0, words := [] }

/-- The next word of the stream. -/
def nextWord (source : ChaChaSource) : UInt32 × ChaChaSource :=
  match source.words with
  | word :: rest => (word, { source with words := rest })
  | [] =>
    match (ChaCha.block source.key source.counter).toList with
    | word :: rest => (word, { source with counter := source.counter + 1, words := rest })
    | [] => (0, source)

/-- The next two words as one number, the first one its low half. -/
def nextDoubleWord (source : ChaChaSource) : UInt64 × ChaChaSource :=
  let (low, source) := source.nextWord
  let (high, source) := source.nextWord
  (low.toUInt64 ||| (high.toUInt64 <<< 32), source)

/-- A number below a bound from draws of `width` bits.

The draw is scaled to the bound and its fraction dropped. When the fraction leaves room for one
more, a second draw, scaled in the same way, decides whether it carries. -/
def scaleDraw (width bound : Nat) (draw : ChaChaSource → Nat × ChaChaSource)
    (source : ChaChaSource) : Nat × ChaChaSource :=
  let range := Nat.pow 2 width
  let (first, source) := draw source
  let whole := first * bound / range
  let fraction := first * bound % range
  if range - bound < fraction then
    let (second, source) := draw source
    let carry := range ≤ fraction + second * bound / range
    (if carry then whole + 1 else whole, source)
  else (whole, source)

/-- A number below a bound; bounds up to 2 ^ 32 - 1 draw one word, larger ones two. -/
def nextBounded (bound : Nat) (source : ChaChaSource) : Nat × ChaChaSource :=
  if bound = 0 then (0, source)
  else if bound < Nat.pow 2 32 then
    scaleDraw 32 bound (fun source => let (w, source) := source.nextWord; (w.toNat, source)) source
  else
    scaleDraw 64 bound
      (fun source => let (w, source) := source.nextDoubleWord; (w.toNat, source)) source

/-- A multiple of 2 ^ -53 in the half-open unit interval. -/
def nextDouble (source : ChaChaSource) : Float × ChaChaSource :=
  let (word, source) := source.nextDoubleWord
  ((word >>> 11).toFloat / 9007199254740992.0, source)

instance : RandomSource ChaChaSource where
  seed := seed
  reseed seed _ := ofSeed seed
  nextBounded := nextBounded
  nextDouble := nextDouble

end ChaChaSource

end ScheduleExplorer
