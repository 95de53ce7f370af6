import ScheduleExplorer.Fault
import ScheduleExplorer.Strategy.Bound
import ScheduleExplorer.Trace

/-!
# Replay

Follows a recorded trace decision by decision. A query that the next decision does not answer is a
divergence: it is recorded as a fault, and nothing is answered any more until the fault is taken.
-/

namespace ScheduleExplorer

/-- A trace that is being replayed. -/
structure Replay where
  trace : Trace
  position : Nat := 0
  steps : Nat := 0
  maxSteps : Nat
  isFair : Bool
  fault : Option Fault := none
deriving DecidableEq, Inhabited

namespace Replay

/-- Records a divergence at the current position, unless one is recorded already. -/
def diverge (reason : String) (s : Replay) : Replay :=
  match s.fault with
  | some _ => s
  | none => { s with fault := some (.replayDivergence s.position reason) }

/-- Moves past a decision. -/
def advance (s : Replay) : Replay :=
  { s with position := s.position + 1, steps := s.steps + 1 }

/-- What a query asks for, in words. -/
def wanted : Query → String
  | .operation _ => "an operation"
  | .boolean _ => "a boolean"
  | .integer _ => "an integer"

/-- The answer that a decision gives to a query, or why it gives none. -/
def reply (decision : Decision) : (query : Query) → Except String query.Answer
  | .operation ops =>
    match decision with
    | .operation id =>
      if Operation.isEnabledIn ops id then .ok id else .error s!"{id} is not enabled"
    | other => .error s!"expected {other}, program asked for an operation"
  | .boolean _ =>
    match decision with
    | .boolean value => .ok value
    | other => .error s!"expected {other}, program asked for a boolean"
  | .integer bound =>
    let refuse := .error s!"expected {decision}, program asked for an integer below {bound}"
    match decision with
    | .integer value => if value < max bound 1 then .ok value else refuse
    | _ => refuse

/-- Whether there is anything to answer: a query for an operation needs an enabled one. -/
def isAnswerable : Query → Bool
  | .operation ops => Operation.anyEnabled ops
  | _ => true

/-- Answers a query with the next decision. -/
def answer (query : Query) (s : Replay) : Option query.Answer × Replay :=
  if !isAnswerable query || s.fault.isSome then (none, s)
  else
    match s.trace.get? s.position with
    | none => (none, s.diverge s!"trace exhausted while expecting {wanted query}")
    | some decision =>
      match reply decision query with
      | .ok answer => (some answer, s.advance)
      | .error reason => (none, s.diverge reason)

/-- Moves back to the first decision. -/
def reset (s : Replay) : Replay :=
  { s with position := 0, steps := 0 }

/-- Takes the recorded fault. -/
def takeFault (s : Replay) : Option Fault × Replay :=
  (s.fault, { s with fault := none })

/-- The description of a replay. -/
def description (s : Replay) : String :=
  s!"Replay[{s.trace.size} steps]"

end Replay

end ScheduleExplorer
