/-!
# JSON values

The data that configurations, traces, reports and message payloads are exchanged in. Fields keep
the order and the repetitions they were read with, so that a reader can refuse a repeated field.
-/

namespace ScheduleExplorer

/-- A JSON value.

Numbers come in three kinds, as they are written: a natural number below 2 ^ 64, a negative
integer not below -2 ^ 63, and a double for every other number. `unreadable` is a token that is
well formed and denotes no value: a number beyond the doubles, or a string with half of a
surrogate pair. -/
inductive Json where
  | null
  | bool (value : Bool)
  | natural (value : Nat)
  | negative (magnitude : Nat)
  | double (bits : UInt64)
  | string (value : String)
  | array (items : List Json)
  | object (fields : List (String × Json))
  | unreadable
deriving Inhabited

namespace Json

/-- The fields of an object. -/
def fields? : Json → Option (List (String × Json))
  | object fields => some fields
  | _ => none

/-- The items of an array. -/
def items? : Json → Option (List Json)
  | array items => some items
  | _ => none

/-- The value of a natural number below 2 ^ 64. -/
def natural? : Json → Option Nat
  | natural value => some value
  | _ => none

/-- The value of a truth value. -/
def bool? : Json → Option Bool
  | bool value => some value
  | _ => none

/-- The text of a string. -/
def string? : Json → Option String
  | string value => some value
  | _ => none

/-- The value of an optional field: `some none` when it is missing and `none` when it is
repeated. -/
def optional? (fields : List (String × Json)) (name : String) : Option (Option Json) :=
  match fields.filter (·.1 == name) with
  | [] => some none
  | [field] => some (some field.2)
  | _ => none

/-- The value of a field that has to be present once. -/
def required? (fields : List (String × Json)) (name : String) : Option Json :=
  (optional? fields name).bind id

/-- Reads a field that has to be present once. -/
def field? {α : Type} (fields : List (String × Json)) (name : String) (read : Json → Option α) :
    Option α :=
  (required? fields name).bind read

/-- Reads a field that falls back to a default when it is missing. -/
def fieldOr? {α : Type} (fields : List (String × Json)) (name : String)
    (read : Json → Option α) (default : α) : Option α :=
  match optional? fields name with
  | none => none
  | some none => some default
  | some (some value) => read value

/-- Reads a name without data: the plain name, or an object whose only field is the name with
`null`. -/
def unitName? : Json → Option String
  | string name => some name
  | object [(name, null)] => some name
  | _ => none

end Json

end ScheduleExplorer
