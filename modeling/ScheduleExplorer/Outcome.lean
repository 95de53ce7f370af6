import ScheduleExplorer.Trace

/-!
# Outcomes of iterations

An iteration completes, finds a bug or reaches its step bound. A bug is reported with the trace
that replays it.
-/

namespace ScheduleExplorer

/-- The kind of a bug. -/
inductive BugKind where
  | assertion
  | panic
  | deadlock
  | liveness
deriving DecidableEq, Inhabited

namespace BugKind

instance : ToString BugKind where
  toString
    | assertion => "assertion failure"
    | panic => "panic"
    | deadlock => "deadlock"
    | liveness => "liveness violation"

/-- Every kind, in order. -/
def all : List BugKind :=
  [assertion, panic, deadlock, liveness]

/-- The name of a kind in data. -/
def key : BugKind → String
  | assertion => "assertion"
  | panic => "panic"
  | deadlock => "deadlock"
  | liveness => "liveness"

/-- A kind as data. -/
def toJson (kind : BugKind) : Json :=
  .string kind.key

/-- Reads a kind from data. -/
def ofJson? (json : Json) : Option BugKind :=
  json.unitName?.bind fun name => all.find? (·.key == name)

end BugKind

/-- How an iteration ended. -/
inductive Outcome where
  | completed
  | bugFound (kind : BugKind)
  | stepBoundReached
deriving DecidableEq, Inhabited

namespace Outcome

instance : ToString Outcome where
  toString
    | completed => "completed"
    | bugFound kind => s!"bug found ({kind})"
    | stepBoundReached => "step bound reached"

/-- Whether a bug was found. -/
def isBug : Outcome → Bool
  | bugFound _ => true
  | _ => false

/-- An outcome as data. -/
def toJson : Outcome → Json
  | completed => .string "completed"
  | bugFound kind => .object [("bug_found", kind.toJson)]
  | stepBoundReached => .string "step_bound_reached"

/-- Reads an outcome from data. -/
def ofJson? : Json → Option Outcome
  | .object [("bug_found", kind)] => (BugKind.ofJson? kind).map bugFound
  | json =>
    match json.unitName? with
    | some "completed" => some completed
    | some "step_bound_reached" => some stepBoundReached
    | _ => none

end Outcome

/-- A bug, with the decisions that lead to it. -/
structure BugReport where
  kind : BugKind
  message : String
  trace : Trace
  scheduledSteps : Nat
  iteration : Nat
  strategy : String
deriving DecidableEq, Inhabited

namespace BugReport

instance : ToString BugReport where
  toString bug :=
    s!"Found {bug.kind} in iteration {bug.iteration} after {bug.scheduledSteps} steps ({bug.strategy}): {bug.message}\n" ++
      toString bug.trace

/-- A bug report as data. -/
def toJson (bug : BugReport) : Json :=
  .object [
    ("kind", bug.kind.toJson),
    ("message", .string bug.message),
    ("trace", bug.trace.toJson),
    ("scheduled_steps", .natural bug.scheduledSteps),
    ("iteration", .natural bug.iteration),
    ("strategy", .string bug.strategy)]

/-- Reads a bug report from data. -/
def ofJson? (json : Json) : Option BugReport := do
  let fields ← json.fields?
  let kind ← Json.field? fields "kind" BugKind.ofJson?
  let message ← Json.field? fields "message" Json.string?
  let trace ← Json.field? fields "trace" Trace.ofJson?
  let scheduledSteps ← Json.field? fields "scheduled_steps" Json.natural?
  let iteration ← Json.field? fields "iteration" Json.natural?
  let strategy ← Json.field? fields "strategy" Json.string?
  pure { kind, message, trace, scheduledSteps, iteration, strategy }

end BugReport

end ScheduleExplorer
