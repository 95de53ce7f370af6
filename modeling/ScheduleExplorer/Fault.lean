import ScheduleExplorer.Operation.Id

/-!
# Faults

A fault ends a whole testing run: a setting that cannot be used, a call that refers to nothing, or
a recorded trace that does not fit the program. A bug of the program under test is no fault.
-/

namespace ScheduleExplorer

/-- The cause of a fault. -/
inductive Fault where
  | invalidStrategy (input reason : String)
  | invalidConfig (reason : String)
  | unknownOperation (id : OperationId)
  | emptyOperationSet
  | replayDivergence (step : Nat) (reason : String)
  | execution (reason : String)
deriving DecidableEq, Inhabited

namespace Fault

/-- The wording of a fault. -/
def message : Fault → String
  | invalidStrategy input reason => s!"Invalid strategy '{input}': {reason}"
  | invalidConfig reason => s!"Invalid configuration: {reason}"
  | unknownOperation id => s!"Unknown operation: {id}"
  | emptyOperationSet => "No live operations to schedule"
  | replayDivergence step reason => s!"Replay diverged at step {step}: {reason}"
  | execution reason => s!"Runtime failure: {reason}"

/-- Whether the settings are at fault. -/
def isConfig : Fault → Bool
  | invalidStrategy .. | invalidConfig _ => true
  | _ => false

/-- Whether a recorded trace is at fault. -/
def isReplay : Fault → Bool
  | replayDivergence .. => true
  | _ => false

end Fault

/-- Why a primitive of the program under test was refused. -/
inductive Cancellation where
  | iterationStopped
  | notEnabled
  | uncontrolledThread
deriving DecidableEq, Inhabited

namespace Cancellation

/-- The reason in words. -/
def reason : Cancellation → String
  | iterationStopped => "iteration stopped"
  | notEnabled => "operation not enabled"
  | uncontrolledThread => "uncontrolled thread"

/-- The wording of a cancellation. -/
def message (cancellation : Cancellation) : String :=
  "Execution canceled: " ++ cancellation.reason

end Cancellation

end ScheduleExplorer
