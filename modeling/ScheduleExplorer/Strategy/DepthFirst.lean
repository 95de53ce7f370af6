import ScheduleExplorer.Odometer
import ScheduleExplorer.Strategy.Bound
import ScheduleExplorer.Trace

/-!
# Depth-first search

Enumerates every sequence of answers of a bounded program exactly once. Each query is a choice of an
odometer: its options are the enabled operations, the two truth values (true first) or the
integers below the bound.
-/

namespace ScheduleExplorer

/-- A depth-first search. -/
structure DepthFirst where
  odometer : Odometer := {}
  steps : Nat := 0
  maxSteps : Nat
  /-- The number of iterations that have ended. -/
  explored : Nat := 0
deriving DecidableEq, Inhabited

namespace DepthFirst

/-- The number of choices that are remembered. -/
def depth (s : DepthFirst) : Nat :=
  s.odometer.size

/-- Takes the next choice among a number of options. -/
def choose (options : Nat) (s : DepthFirst) : Nat × DepthFirst :=
  let (index, odometer) := s.odometer.next options 0
  (index, { s with odometer, steps := s.steps + 1 })

/-- Answers a query. -/
def answer (query : Query) (s : DepthFirst) : Option query.Answer × DepthFirst :=
  match query with
  | .operation ops =>
    let enabled := Operation.enabledIds ops
    if enabled.isEmpty then (none, s)
    else
      let (index, s) := s.choose enabled.length
      (enabled[index]?, s)
  | .boolean _ =>
    let (index, s) := s.choose 2
    (some (index == 0), s)
  | .integer bound =>
    let (index, s) := s.choose (max bound 1)
    (some index, s)

/-- Moves on to the next sequence of answers; false when there is none. -/
def prepare (s : DepthFirst) : Bool × DepthFirst :=
  let odometer := s.odometer.truncate.advance
  (!odometer.isEmpty, { s with odometer, steps := 0, explored := s.explored + 1 })

/-- Forgets every choice. -/
def reset (s : DepthFirst) : DepthFirst :=
  { s with odometer := {}, steps := 0 }

end DepthFirst

end ScheduleExplorer
