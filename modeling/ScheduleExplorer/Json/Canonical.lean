import ScheduleExplorer.Json

/-!
# Canonical JSON values

A value that is kept as data has its fields sorted by name, each name once with the last value
written for it, and is nested at most to a fixed depth.
-/

namespace ScheduleExplorer.Json

/-- How deeply arrays and objects may be nested in a value that is kept. -/
def maxDepth : Nat := 127

/-- Puts a field into fields sorted by name, replacing a field of that name. -/
def insertField (name : String) (value : Json) : List (String × Json) → List (String × Json)
  | [] => [(name, value)]
  | (other, v) :: rest =>
    if name < other then (name, value) :: (other, v) :: rest
    else if name = other then (name, value) :: rest
    else (other, v) :: insertField name value rest

mutual

/-- The canonical form of a value that may nest `depth` levels; `none` if it is deeper or holds an
unreadable part. -/
def canonical? (depth : Nat) : Json → Option Json
  | array items =>
    if depth = 0 then none else (canonicalItems? (depth - 1) items).map array
  | object fields =>
    if depth = 0 then none else (canonicalFields? (depth - 1) [] fields).map object
  | unreadable => none
  | value => some value

/-- The canonical forms of the items of an array. -/
def canonicalItems? (depth : Nat) : List Json → Option (List Json)
  | [] => some []
  | item :: rest => do
    let item ← canonical? depth item
    let rest ← canonicalItems? depth rest
    pure (item :: rest)

/-- The canonical forms of the fields of an object, put into `sorted` in their order. -/
def canonicalFields? (depth : Nat) (sorted : List (String × Json)) :
    List (String × Json) → Option (List (String × Json))
  | [] => some sorted
  | (name, value) :: rest => do
    let value ← canonical? depth value
    canonicalFields? depth (insertField name value sorted) rest

end

end ScheduleExplorer.Json
