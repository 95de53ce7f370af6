import ScheduleExplorer.Strategy.Points
import ScheduleExplorer.Strategy.RandomWalk

/-!
# Priority schedules with random change points

Every operation has a random priority and the enabled operation with the highest one runs. At a few
random change points that operation is demoted to the lowest priority. A new operation is inserted
at a random place after the head of the priorities.
-/

namespace ScheduleExplorer

variable {γ : Type} [RandomSource γ]

/-- A priority schedule. -/
structure PrioritySchedule (γ : Type) where
  walk : RandomWalk γ
  maxChangePoints : Nat
  /-- The largest number of steps of an iteration so far. -/
  scheduleLength : Nat := 0
  /-- The known operations, highest priority first. -/
  priorities : List OperationId := []
  changePoints : Points := ∅

namespace PrioritySchedule

/-- The strategy before its first iteration. -/
def ofSource (source : γ) (maxSteps maxChangePoints : Nat) : PrioritySchedule γ :=
  { walk := .ofSource source maxSteps, maxChangePoints }

/-- Gives every unknown operation a random place after the head, in order. -/
def insertNew : List OperationId → PrioritySchedule γ → PrioritySchedule γ
  | [], s => s
  | id :: rest, s =>
    if s.priorities.contains id then insertNew rest s
    else
      let (place, walk) := s.walk.draw s.priorities.length
      insertNew rest { s with walk, priorities := s.priorities.insertIdx (place + 1) id }

/-- The enabled operation with the highest priority. -/
def highest? (enabled : List OperationId) (s : PrioritySchedule γ) : Option OperationId :=
  s.priorities.find? enabled.contains

/-- Gives an operation the lowest priority. -/
def demote (id : OperationId) (s : PrioritySchedule γ) : PrioritySchedule γ :=
  { s with priorities := s.priorities.filter (· ≠ id) ++ [id] }

/-- What happens at a change point: the running operation is demoted, or, if no other one is
enabled, the point moves forward. -/
def change (enabled : List OperationId) (s : PrioritySchedule γ) : PrioritySchedule γ :=
  if enabled.length = 1 then
    { s with changePoints := s.changePoints.moveForward s.walk.steps }
  else
    match s.highest? enabled with
    | some id => s.demote id
    | none => s

/-- Answers a query. -/
def answer (current : Operation) (query : Query) (s : PrioritySchedule γ) :
    Option query.Answer × PrioritySchedule γ :=
  match query with
  | .operation ops =>
    let enabled := Operation.enabledIds ops
    if enabled.isEmpty then (none, s)
    else
      let s := if s.priorities.isEmpty then { s with priorities := [current.id] } else s
      let s := insertNew enabled s
      let s := if s.changePoints.contains s.walk.steps then s.change enabled else s
      (s.highest? enabled, { s with walk := s.walk.step })
  | query =>
    let (a, walk) := s.walk.answer query
    (a, { s with walk })

/-- The strategy of the next iteration, with new change points. -/
def prepare (s : PrioritySchedule γ) : PrioritySchedule γ :=
  let scheduleLength := max s.scheduleLength s.walk.steps
  let walk := s.walk.prepare
  let (changePoints, source) := Points.sample scheduleLength s.maxChangePoints walk.source
  { s with walk := { walk with source }, scheduleLength, changePoints, priorities := [] }

/-- Forgets the iteration, the priorities and the change points. -/
def reset (s : PrioritySchedule γ) : PrioritySchedule γ :=
  { s with walk := s.walk.reset, scheduleLength := 0, priorities := [], changePoints := ∅ }

/-- The description of the strategy, with its change points in order. -/
def description (s : PrioritySchedule γ) : String :=
  let points := ", ".intercalate (s.changePoints.toList.map toString)
  s!"PCT[priority change points '{s.maxChangePoints}' [{points}], seed '{s.walk.baseSeed}']"

end PrioritySchedule

end ScheduleExplorer
