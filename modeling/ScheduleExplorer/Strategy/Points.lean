import ScheduleExplorer.Random.Source
import Std.Data.TreeSet.Basic

/-!
# Random points of a schedule

Two strategies deviate from a default at a few random steps of the schedule. The steps are the first
ones of a shuffled range.
-/

namespace ScheduleExplorer

variable {γ : Type} [RandomSource γ]

/-- A set of steps. -/
abbrev Points := Std.TreeSet Nat

namespace Points

/-- Swaps every place from `last` down to 1 with a place drawn below `length`. -/
def shuffle (length : Nat) : Nat → Array Nat → γ → Array Nat × γ
  | 0, range, source => (range, source)
  | last + 1, range, source =>
    let (place, source) := RandomSource.nextBounded length source
    shuffle length last (range.swapIfInBounds (last + 1) place) source

/-- Draws `count` steps below `length`, or all of them when there are fewer. -/
def sample (length count : Nat) (source : γ) : Points × γ :=
  let (range, source) := shuffle length (length - 1) (Array.range length) source
  (Std.TreeSet.ofList (range.toList.take count), source)

/-- The first number from `step` on that is not in an ascending list. -/
def firstGap (step : Nat) : List Nat → Nat
  | [] => step
  | point :: rest =>
    if point = step then firstGap (step + 1) rest
    else if point < step then firstGap step rest
    else step

/-- Moves a point to the next step that is not a point. -/
def moveForward (step : Nat) (points : Points) : Points :=
  let points := points.erase step
  points.insert (firstGap (step + 1) points.toList)

end Points

end ScheduleExplorer
