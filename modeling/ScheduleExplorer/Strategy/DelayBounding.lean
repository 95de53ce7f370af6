import ScheduleExplorer.State.Coverage
import ScheduleExplorer.Strategy.Points
import ScheduleExplorer.Strategy.RandomWalk

/-!
# Delay bounding

The running operation goes on as long as it can, except at a few random delay points, where another
operation takes over. The iterative form raises the number of delays by one each time the number of
different states has stopped growing.
-/

namespace ScheduleExplorer

variable {γ : Type} [RandomSource γ]

/-- The number of stagnant iterations after which the iterative form allows another delay. -/
def samplingThreshold : Nat := 100

/-- A delay-bounded strategy. -/
structure DelayBounding (γ : Type) where
  walk : RandomWalk γ
  maxDelays : Nat
  isIterative : Bool
  level : AbstractionLevel := .default
  /-- The largest number of steps of an iteration so far. -/
  scheduleLength : Nat := 0
  delayPoints : Points := ∅
  visits : VisitCounts := {}
  previousUnique : Nat := 0
  stagnant : Nat := 0

namespace DelayBounding

/-- The strategy before its first iteration. -/
def ofSource (source : γ) (maxSteps maxDelays : Nat) (isIterative : Bool)
    (level : AbstractionLevel) : DelayBounding γ :=
  { walk := .ofSource source maxSteps, maxDelays, isIterative, level }

/-- Counts a visit to the state that the running operation sees. -/
def visit (current : Operation) (s : DelayBounding γ) : DelayBounding γ :=
  { s with visits := s.visits.record (current.hashes.atLevel s.level) }

/-- The enabled operations in round-robin order from the running one. -/
def rotated (current : Operation) (ops : List Operation) : List OperationId :=
  let start := ((ops.findIdx? fun op => op.id = current.id).getD 0)
  Operation.enabledIds (ops.drop start ++ ops.take start)

/-- Chooses among the enabled operations, of which there is at least one. -/
def choose (current : Operation) (enabled : List OperationId) (s : DelayBounding γ) :
    Option OperationId × DelayBounding γ :=
  if enabled.length = 1 then (enabled.head?, s)
  else if !current.isEnabled then
    let (id, walk) := s.walk.pick enabled
    (id, { s with walk })
  else if s.delayPoints.contains s.walk.steps then
    let (id, walk) := s.walk.pick (enabled.filter (· ≠ current.id))
    (id, { s with walk })
  else (some current.id, s)

/-- Answers a query. -/
def answer (current : Operation) (query : Query) (s : DelayBounding γ) :
    Option query.Answer × DelayBounding γ :=
  let s := s.visit current
  match query with
  | .operation ops =>
    let enabled := rotated current ops
    if enabled.isEmpty then (none, s)
    else
      let (id, s) := s.choose current enabled
      (id, { s with walk := s.walk.step })
  | query =>
    let (a, walk) := s.walk.answer query
    (a, { s with walk })

/-- Adjusts the number of delays after an iteration of the iterative form. The number is a word of 64
bits: adding to it is exact below `UInt64.size`, and there it stays for as long as the strategy has
not been asked `samplingThreshold` times as often. -/
def adjustDelays (s : DelayBounding γ) : DelayBounding γ :=
  if s.isIterative then
    let unique := s.visits.uniqueStates
    let s :=
      if unique = s.previousUnique then
        if s.stagnant + 1 = samplingThreshold then
          { s with stagnant := 0, maxDelays := s.maxDelays + 1 }
        else { s with stagnant := s.stagnant + 1 }
      else s
    { s with previousUnique := unique }
  else s

/-- The strategy of the next iteration, with new delay points. -/
def prepare (s : DelayBounding γ) : DelayBounding γ :=
  let s := s.adjustDelays
  let scheduleLength := max s.scheduleLength s.walk.steps
  let walk := s.walk.prepare
  let (delayPoints, source) := Points.sample scheduleLength s.maxDelays walk.source
  { s with walk := { walk with source }, scheduleLength, delayPoints }

/-- Forgets the iteration and the delay points. -/
def reset (s : DelayBounding γ) : DelayBounding γ :=
  { s with walk := s.walk.reset, scheduleLength := 0, delayPoints := ∅ }

/-- The description of the strategy. -/
def description (s : DelayBounding γ) : String :=
  let name := if s.isIterative then "IterativeDelayBounding" else "DelayBounding"
  s!"{name}[seed '{s.walk.baseSeed}', delays '{s.maxDelays}']"

end DelayBounding

end ScheduleExplorer
