import ScheduleExplorer.Outcome
import ScheduleExplorer.State.Coverage
import ScheduleExplorer.Strategy

/-!
# Iterations

An iteration owns the table of operations, the strategy and the monitors from the start of the
program to its end. Every scheduling point and every controlled choice of the program passes
through it: it enables the operations whose wait is over, asks the strategy, records the answer in
the trace, and decides when and how the iteration ends.

`Iteration.scheduleNext` and `Iteration.choose` are the two queries. Both answer `none` once the
iteration has ended, and an error is a fault that the caller passes on to `Iteration.abort`.
-/

namespace ScheduleExplorer

/-- Whether an iteration goes on, and how it ended if it does not. -/
inductive Phase where
  | running
  | stopped (outcome : Outcome)
  | aborted
deriving DecidableEq, Inhabited

/-- An iteration under way. -/
structure Iteration (γ : Type) where
  strategy : Strategy γ
  monitors : Monitors := {}
  coverage : Coverage := {}
  /-- Whether reaching the step bound counts as a bug. -/
  depthBoundIsBug : Bool := false
  operations : List Operation := []
  /-- The operation whose turn it is. -/
  current : OperationId := ⟨0⟩
  trace : Trace := {}
  /-- The number of scheduling decisions in the trace. -/
  operationSteps : Nat := 0
  phase : Phase := .running
  message : Option String := none
  fault : Option Fault := none

/-- What an iteration leaves behind. -/
structure IterationResult (γ : Type) where
  strategy : Strategy γ
  monitors : Monitors
  coverage : Coverage
  outcome : Outcome
  message : Option String
  trace : Trace
  scheduledSteps : Nat
  fault : Option Fault

namespace Iteration

variable {γ : Type} [RandomSource γ]

/-- Whether the iteration goes on. -/
def isRunning (it : Iteration γ) : Bool :=
  it.phase = .running

/-- How the iteration ended; an aborted one has no outcome. -/
def outcome? (it : Iteration γ) : Option Outcome :=
  match it.phase with
  | .stopped outcome => some outcome
  | _ => none

/-! ### The table of operations -/

/-- Adds an operation that is not created yet; its number is the number of operations before
it. -/
def register (name : String) (it : Iteration γ) : OperationId × Iteration γ :=
  let id : OperationId := ⟨it.operations.length⟩
  (id, { it with operations := it.operations ++ [Operation.new id name] })

/-- The operation with a number. -/
def operation? (id : OperationId) (it : Iteration γ) : Option Operation :=
  it.operations[id.index]?

/-- Changes the operation with a number; an unknown number changes nothing. -/
def update (id : OperationId) (f : Operation → Operation) (it : Iteration γ) : Iteration γ :=
  { it with operations := it.operations.modify id.index f }

/-- Whether a number belongs to a completed operation. -/
def isCompleted (it : Iteration γ) (id : OperationId) : Bool :=
  (it.operation? id).any (·.status.isCompleted)

/-- Enables every operation whose wait for other operations is over. -/
def enableWaiting (it : Iteration γ) : Iteration γ :=
  { it with operations := it.operations.map (Operation.enableIfReady it.isCompleted) }

/-- Counts a state of the program as visited and shows it to the running operation. -/
def recordState (hashes : StateHashes) (it : Iteration γ) : Iteration γ :=
  { it.update it.current (Operation.recordState hashes) with
    coverage := it.coverage.record hashes }

/-! ### Endings -/

/-- Ends the iteration; a second ending changes nothing. -/
def stop (outcome : Outcome) (it : Iteration γ) : Iteration γ :=
  if it.isRunning then { it with phase := .stopped outcome } else it

/-- Ends the iteration with a bug; after an ending nothing happens. -/
def reportBug (kind : BugKind) (message : String) (it : Iteration γ) : Iteration γ :=
  if it.isRunning then
    { it with
      message := some message
      strategy := it.strategy.notifyBug
      phase := .stopped (.bugFound kind) }
  else it

/-- Gives the iteration up because of a fault; the first fault is kept. -/
def abort (fault : Fault) (it : Iteration γ) : Iteration γ :=
  { it with fault := it.fault <|> some fault, phase := .aborted }

/-- Ends the iteration if a violation is recorded. -/
def endAtViolation? (it : Iteration γ) : Option (Iteration γ) :=
  it.monitors.violation.map fun violation => it.reportBug .liveness violation.message

/-- Ends the iteration at its step bound. A monitor that is hot at the end of a fair execution is a
bug, and so is the bound itself if the iteration is told so. -/
def endAtBound (it : Iteration γ) : Iteration γ :=
  let it :=
    if it.strategy.isFair then { it with monitors := it.monitors.checkAtBound } else it
  match if it.strategy.isFair then it.monitors.violation else none with
  | some violation => it.reportBug .liveness violation.message
  | none =>
    if it.depthBoundIsBug then
      it.reportBug .assertion s!"Scheduling steps bound of {it.strategy.steps} reached"
    else it.stop .stepBoundReached

/-- The quoted names of the operations with a status. -/
def namesWith (status : Status) (it : Iteration γ) : List String :=
  (it.operations.filter (·.status = status)).map fun op => s!"'{op.name}'"

/-- What the blocked operations wait for, in words. -/
def deadlockMessage (it : Iteration γ) : String :=
  let clause (names : List String) (wait : String) : List String :=
    if names.isEmpty then [] else [", ".intercalate names ++ wait]
  let acquiring :=
    (it.operations.filter (·.status = .blockedOnResource)).map fun op =>
      match op.awaitedResource with
      | some resource => s!"'{op.name}' waiting to acquire {resource}"
      | none => s!"'{op.name}' waiting to acquire a resource"
  let clauses :=
    clause (it.namesWith .blockedOnReceive) " waiting to receive an event" ++
      clause (it.namesWith .blockedOnWaitAll ++ it.namesWith .blockedOnWaitAny)
        " waiting for tasks to complete" ++
      acquiring
  "Deadlock detected: " ++ "; ".intercalate clauses ++ "."

/-- Ends the iteration because nothing can be scheduled: a deadlock if an operation is blocked. -/
def endWithoutChoice (it : Iteration γ) : Iteration γ :=
  if it.operations.any (·.status.isBlocked) then it.reportBug .deadlock it.deadlockMessage
  else it.stop .completed

/-! ### Queries -/

/-- Asks the strategy on behalf of the running operation.

A violation ends the iteration, and then there is no reply; a fault of the strategy is an error.
Otherwise the reply is what the strategy answers, which may be nothing. -/
def consult (query : Query) (it : Iteration γ) :
    Except Fault (Option (Option query.Answer)) × Iteration γ :=
  match it.operation? it.current with
  | none => (.error (.unknownOperation it.current), it)
  | some op =>
    let (answer, strategy, monitors) := it.strategy.answer op query it.monitors
    let it := { it with strategy, monitors }
    match it.endAtViolation? with
    | some ended => (.ok none, ended)
    | none =>
      match it.strategy.takeFault with
      | (some fault, strategy) => (.error fault, { it with strategy })
      | (none, strategy) => (.ok (some answer), { it with strategy })

/-- Gives the turn to an operation. -/
def schedule (next : OperationId) (it : Iteration γ) : Iteration γ :=
  { it with
    trace := it.trace.push (.operation next)
    operationSteps := it.operationSteps + 1
    current := next }

/-- A scheduling point: decides whose turn it is next, or ends the iteration. -/
def scheduleNext (it : Iteration γ) : Except Fault (Option OperationId) × Iteration γ :=
  if !it.isRunning then (.ok none, it)
  else if it.operations.isEmpty then (.error .emptyOperationSet, it)
  else
    let it := it.enableWaiting
    if it.operations.all (·.status.isCompleted) then (.ok none, it.stop .completed)
    else if it.strategy.atBound then (.ok none, it.endAtBound)
    else
      match it.consult (.operation it.operations) with
      | (.error fault, it) => (.error fault, it)
      | (.ok none, it) => (.ok none, it)
      | (.ok (some none), it) => (.ok none, it.endWithoutChoice)
      | (.ok (some (some next)), it) =>
        match it.operation? next with
        | none => (.error (.unknownOperation next), it)
        | some op =>
          if op.isEnabled then (.ok (some next), it.schedule next)
          else
            (.error (.execution
              s!"strategy '{it.strategy.description}' chose {next} which is not enabled"), it)

/-- A controlled choice: answers a query for a value, or ends the iteration at its step bound. -/
def choose (query : Query) (it : Iteration γ) : Except Fault (Option query.Answer) × Iteration γ :=
  if !it.isRunning then (.ok none, it)
  else if it.strategy.atBound then (.ok none, it.endAtBound)
  else
    match it.consult query with
    | (.error fault, it) => (.error fault, it)
    | (.ok none, it) => (.ok none, it)
    | (.ok (some none), it) =>
      (.error (.execution
        s!"strategy '{it.strategy.description}' returned no value for a controlled choice"), it)
    | (.ok (some (some value)), it) =>
      (.ok (some value), { it with trace := it.trace.push (query.decision value) })

/-- Closes the iteration. One that is aborted or still running counts as completed. -/
def finish (it : Iteration γ) : IterationResult γ where
  strategy := it.strategy
  monitors := it.monitors
  coverage := it.coverage
  outcome := it.outcome?.getD .completed
  message := it.message
  trace := it.trace
  scheduledSteps := it.strategy.steps
  fault := it.fault

end Iteration

end ScheduleExplorer
