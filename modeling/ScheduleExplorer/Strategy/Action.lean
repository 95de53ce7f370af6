import ScheduleExplorer.Trace

/-!
# Actions

Strategies that learn name every answer by a word. An operation is named by its number; truth values
and integers have names from the top of the range, which no operation reaches.
-/

namespace ScheduleExplorer.Action

/-- The name of an operation. -/
def ofOperation (id : OperationId) : UInt64 :=
  UInt64.ofNat id.index

/-- The name of the answer true. -/
def ofTrue : UInt64 := 0xFFFFFFFFFFFFFFFF

/-- The name of the answer false. -/
def ofFalse : UInt64 := 0xFFFFFFFFFFFFFFFE

/-- The name of an integer. -/
def ofInteger (n : Nat) : UInt64 :=
  0xFFFFFFFFFFFFFFFD - UInt64.ofNat n

/-- The names of the possible answers to a query, in the order of the alternatives. -/
def ofQuery : Query → List UInt64
  | .operation ops => (Operation.enabledIds ops).map ofOperation
  | .boolean _ => [ofTrue, ofFalse]
  | .integer bound => (List.range (max bound 1)).map ofInteger

/-- The answer at a position of the alternatives. -/
def answerAt (index : Nat) : (query : Query) → Option query.Answer
  | .operation ops => (Operation.enabledIds ops)[index]?
  | .boolean _ => some (index == 0)
  | .integer _ => some index

end ScheduleExplorer.Action
