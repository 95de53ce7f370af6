import ScheduleExplorer.Random.ChaCha

/-!
# Recorded draws

A tape repeats a given list of words, so that an experiment can fix what a strategy draws.
`Generator` is either source.
-/

namespace ScheduleExplorer

/-- A list of words that is read round and round. -/
structure Tape where
  words : Array UInt64
  position : Nat := 0
  seed : UInt64 := 0

namespace Tape

/-- A tape set to a seed: reading begins at the word that the seed counts to. -/
def reseed (seed : UInt64) (tape : Tape) : Tape :=
  { tape with seed, position := seed.toNat % tape.words.size }

/-- The next word. -/
def next (tape : Tape) : UInt64 × Tape :=
  (tape.words.getD (tape.position % tape.words.size) 0,
    { tape with position := tape.position + 1 })

instance : RandomSource Tape where
  seed := seed
  reseed := reseed
  nextBounded bound tape :=
    if bound = 0 then (0, tape)
    else
      let (word, tape) := tape.next
      (word.toNat % bound, tape)
  nextDouble tape :=
    let (word, tape) := tape.next
    ((word % 1024).toFloat / 1024.0, tape)

end Tape

/-- Either the ChaCha stream or a tape. -/
inductive Generator where
  | chaCha (source : ChaChaSource)
  | tape (source : Tape)

namespace Generator

/-- Applies a draw to whichever source it is. -/
def draw {α : Type} (fromChaCha : ChaChaSource → α × ChaChaSource) (fromTape : Tape → α × Tape) :
    Generator → α × Generator
  | chaCha source => let (a, source) := fromChaCha source; (a, chaCha source)
  | tape source => let (a, source) := fromTape source; (a, tape source)

instance : RandomSource Generator where
  seed
    | chaCha source => RandomSource.seed source
    | tape source => RandomSource.seed source
  reseed seed
    | chaCha source => chaCha (RandomSource.reseed seed source)
    | tape source => tape (RandomSource.reseed seed source)
  nextBounded bound := draw (RandomSource.nextBounded bound) (RandomSource.nextBounded bound)
  nextDouble := draw RandomSource.nextDouble RandomSource.nextDouble

end Generator

end ScheduleExplorer
