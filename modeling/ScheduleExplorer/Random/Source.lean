/-!
# Sources of random numbers

Every randomized choice draws from a source. A source is a value: the same seed and the same calls
give the same numbers, so an exploration can be repeated.
-/

namespace ScheduleExplorer

/-- A generator of numbers that is set by a seed. -/
class RandomSource (γ : Type) where
  /-- The seed that was set last. -/
  seed : γ → UInt64
  /-- Sets the seed and starts the numbers again. -/
  reseed : UInt64 → γ → γ
  /-- A number below a positive bound; zero, without a draw, for the bound zero. -/
  nextBounded : Nat → γ → Nat × γ
  /-- A double in the half-open unit interval. -/
  nextDouble : γ → Float × γ

namespace RandomSource

variable {γ : Type} [RandomSource γ]

/-- A truth value. -/
def nextBool (source : γ) : Bool × γ :=
  let (n, source) := nextBounded 2 source
  (n == 1, source)

/-- A number of draws below one bound, in order. -/
def nextMany (bound : Nat) : Nat → γ → List Nat × γ
  | 0, source => ([], source)
  | count + 1, source =>
    let (first, source) := nextBounded bound source
    let (rest, source) := nextMany bound count source
    (first :: rest, source)

end RandomSource

/-- A source that keeps its draws below the bounds it is asked for. -/
class LawfulRandomSource (γ : Type) [RandomSource γ] : Prop where
  nextBounded_lt (bound : Nat) (source : γ) :
    0 < bound → (RandomSource.nextBounded bound source).1 < bound
  nextBounded_zero (source : γ) : RandomSource.nextBounded 0 source = (0, source)

/-- A source that keeps its draws below the bounds it is asked for, whatever becomes of it when the
bound is zero. -/
class BoundedRandomSource (γ : Type) [RandomSource γ] : Prop where
  nextBounded_lt (bound : Nat) (source : γ) :
    0 < bound → (RandomSource.nextBounded bound source).1 < bound
  fst_nextBounded_zero (source : γ) : (RandomSource.nextBounded 0 source).1 = 0

instance {γ : Type} [RandomSource γ] [LawfulRandomSource γ] : BoundedRandomSource γ where
  nextBounded_lt := LawfulRandomSource.nextBounded_lt
  fst_nextBounded_zero source := by rw [LawfulRandomSource.nextBounded_zero]

end ScheduleExplorer
