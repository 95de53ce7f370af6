import ScheduleExplorer.Execution
import Mathlib.Logic.Function.Basic

/-!
# Journals

A journal records what the bodies of an execution see of its primitives: which call every operation
has made and waits in, and which calls have returned with which reply, in the order of the returns.
It is read off the steps from outside. The execution itself does not know of it.

`Execution.Recorded` pairs the executions of a program with their journals, for any strategy. So a
statement about what calls return is a statement about recorded executions.
-/

namespace ScheduleExplorer

variable {γ σ μ : Type}

/-- A call that has returned. -/
structure Return (σ : Type) where
  caller : OperationId
  request : Request σ
  reply : Reply

/-- The calls of an execution. -/
structure Journal (σ : Type) where
  /-- The call in which an operation waits. -/
  pending : OperationId → Option (Request σ) := fun _ => none
  /-- The calls that have returned, oldest first. -/
  returns : List (Return σ) := []

/-- The call that an action makes. -/
def Action.call? : Action σ → Option (Request σ)
  | .call request _ => some request
  | _ => none

namespace Execution

/-- The action that the body whose turn it is takes, if it runs. -/
def action? (program : Program σ μ) (ex : Execution γ σ μ) : Option (Action σ) :=
  match ex.stage? ex.iteration.current with
  | some (.running state reply) =>
    some (program.resume ex.iteration.current state reply ex.memory).1
  | _ => none

/-- The call that the operation whose turn it is makes, or in which it waits. -/
def call? (program : Program σ μ) (journal : Journal σ) (ex : Execution γ σ μ) :
    Option (Request σ) :=
  match ex.action? program with
  | some action => action.call?
  | none => journal.pending ex.iteration.current

/-- The reply that a body has got and not used. -/
def replyTo? (id : OperationId) (ex : Execution γ σ μ) : Option Reply :=
  match ex.stage? id with
  | some (.running _ reply) => if ex.iteration.isRunning then some reply else none
  | _ => none

/-- The return of a call, if the body has got its reply. -/
def returned? (id : OperationId) (call : Option (Request σ)) (ex : Execution γ σ μ) :
    Option (Return σ) := do
  let request ← call
  let reply ← ex.replyTo? id
  pure ⟨id, request, reply⟩

/-- The call in which the body goes on waiting, if it has got no reply. -/
def waiting? (id : OperationId) (call : Option (Request σ)) (ex : Execution γ σ μ) :
    Option (Request σ) :=
  if (ex.replyTo? id).isSome then none else call

end Execution

namespace Journal

/-- The call that returns in a step, if one does. -/
def return? (program : Program σ μ) (ex after : Execution γ σ μ) (journal : Journal σ) :
    Option (Return σ) :=
  after.returned? ex.iteration.current (ex.call? program journal)

/-- The journal after a step. -/
def record (program : Program σ μ) (ex after : Execution γ σ μ) (journal : Journal σ) :
    Journal σ where
  pending := Function.update journal.pending ex.iteration.current
    (after.waiting? ex.iteration.current (ex.call? program journal))
  returns := journal.returns ++ (journal.return? program ex after).toList

end Journal

namespace Execution

variable [RandomSource γ]

/-- The executions of a program under any strategy, with their journals. -/
inductive Recorded (program : Program σ μ) : Execution γ σ μ → Journal σ → Prop where
  | start (strategy : Strategy γ) (monitors : Monitors) (coverage : Coverage)
      (depthBoundIsBug : Bool) :
      Recorded program (.start program { strategy, monitors, coverage, depthBoundIsBug }) {}
  | step {ex after : Execution γ σ μ} {journal : Journal σ} (h : Recorded program ex journal)
      (hstep : ex.step program = some after) :
      Recorded program after (journal.record program ex after)

/-- Takes at most `fuel` steps and keeps the journal. -/
def runRecorded (program : Program σ μ) : Nat → Execution γ σ μ × Journal σ →
    Execution γ σ μ × Journal σ
  | 0, state => state
  | fuel + 1, (ex, journal) =>
    match ex.step program with
    | some after => runRecorded program fuel (after, journal.record program ex after)
    | none => (ex, journal)

/-- A run of a recorded execution is recorded. -/
theorem Recorded.run {program : Program σ μ} {ex : Execution γ σ μ} {journal : Journal σ}
    (h : Recorded program ex journal) (fuel : Nat) :
    Recorded program (runRecorded program fuel (ex, journal)).1
      (runRecorded program fuel (ex, journal)).2 := by
  induction fuel generalizing ex journal with
  | zero => exact h
  | succ fuel ih =>
    rw [runRecorded]
    split
    · next after hstep => exact ih (h.step hstep)
    · exact h

/-- A run is the same with a journal and without. -/
theorem fst_runRecorded (program : Program σ μ) (ex : Execution γ σ μ) (journal : Journal σ)
    (fuel : Nat) : (runRecorded program fuel (ex, journal)).1 = ex.run program fuel := by
  induction fuel generalizing ex journal with
  | zero => rfl
  | succ fuel ih =>
    rw [runRecorded, run]
    cases ex.step program with
    | none => rfl
    | some after => exact ih after _

end Execution

end ScheduleExplorer
