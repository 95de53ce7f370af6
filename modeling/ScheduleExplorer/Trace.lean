import ScheduleExplorer.Operation
import ScheduleExplorer.Json
import ScheduleExplorer.Text.Natural

/-!
# Queries, decisions and traces

A scheduler asks three kinds of query: which operation runs next, a truth value, or an integer
below a bound. `Query.Answer` is the type of the answer to a query. An answered query is a
`Decision`, and the trace of an iteration is the list of its decisions, from which the iteration
can be replayed.
-/

namespace ScheduleExplorer

/-- A question of the scheduler. -/
inductive Query where
  /-- Which operation of the table runs next? -/
  | operation (ops : List Operation)
  /-- Which truth value? A generator draws below `max` for it. -/
  | boolean (max : Nat)
  /-- Which integer below `max`? -/
  | integer (max : Nat)

/-- The type of the answer to a query. -/
abbrev Query.Answer : Query → Type
  | .operation _ => OperationId
  | .boolean _ => Bool
  | .integer _ => Nat

/-- An answered query. -/
inductive Decision where
  | operation (id : OperationId)
  | boolean (value : Bool)
  | integer (value : Nat)
deriving DecidableEq, Inhabited

/-- The decision that an answer to a query amounts to. -/
def Query.decision : (query : Query) → query.Answer → Decision
  | .operation _, id => .operation id
  | .boolean _, value => .boolean value
  | .integer _, value => .integer value

namespace Decision

instance : ToString Decision where
  toString
    | operation id => toString id
    | boolean value => s!"bool {value}"
    | integer value => s!"int {value}"

/-- The operation that a decision schedules. -/
def operation? : Decision → Option OperationId
  | operation id => some id
  | _ => none

/-- A decision as data: its kind and its value. -/
def toJson : Decision → Json
  | operation id => .object [("kind", .string "operation"), ("value", .natural id.index)]
  | boolean value => .object [("kind", .string "boolean"), ("value", .bool value)]
  | integer value => .object [("kind", .string "integer"), ("value", .natural value)]

/-- Reads a decision from data. -/
def ofJson? (json : Json) : Option Decision := do
  let fields ← json.fields?
  let kind ← Json.field? fields "kind" Json.unitName?
  let value ← Json.required? fields "value"
  match kind with
  | "operation" => value.natural?.map fun index => operation ⟨index⟩
  | "boolean" => value.bool?.map boolean
  | "integer" => value.natural?.map integer
  | _ => none

end Decision

/-- The decisions of an iteration, in order. -/
structure Trace where
  decisions : Array Decision := #[]
deriving DecidableEq, Inhabited

namespace Trace

/-- Adds a decision at the end. -/
def push (decision : Decision) (trace : Trace) : Trace :=
  ⟨trace.decisions.push decision⟩

/-- The decisions as a list. -/
def toList (trace : Trace) : List Decision :=
  trace.decisions.toList

/-- The trace with the given decisions. -/
def ofList (decisions : List Decision) : Trace :=
  ⟨decisions.toArray⟩

/-- The number of decisions. -/
def size (trace : Trace) : Nat :=
  trace.decisions.size

/-- The decision at a position. -/
def get? (index : Nat) (trace : Trace) : Option Decision :=
  trace.decisions[index]?

/-- The scheduled operations, in order. -/
def operations (trace : Trace) : List OperationId :=
  trace.toList.filterMap Decision.operation?

/-- A decision is pushed to the end. -/
@[simp] theorem toList_push (decision : Decision) (trace : Trace) :
    (trace.push decision).toList = trace.toList ++ [decision] := by
  simp [push, toList]

/-- The trace of a list of decisions has the list. -/
@[simp] theorem toList_ofList (decisions : List Decision) : (ofList decisions).toList = decisions := by
  simp [ofList, toList]

/-- The lines of a trace, beginning with the given number. -/
def lines (index : Nat) : List Decision → String
  | [] => ""
  | decision :: rest =>
    "#" ++ Text.padRight 4 (toString index) ++ " " ++ toString decision ++ "\n" ++
      lines (index + 1) rest

instance : ToString Trace where
  toString trace := lines 0 trace.toList

/-- A trace as data. -/
def toJson (trace : Trace) : Json :=
  .array (trace.toList.map Decision.toJson)

/-- Reads a trace from data. -/
def ofJson? (json : Json) : Option Trace := do
  let items ← json.items?
  let decisions ← items.mapM Decision.ofJson?
  pure (ofList decisions)

end Trace

end ScheduleExplorer
