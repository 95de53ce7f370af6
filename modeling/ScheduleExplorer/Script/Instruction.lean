import ScheduleExplorer.Json.Canonical
import ScheduleExplorer.Script.Expr

/-!
# Instructions of scripts

A script describes a program under test: named tasks, each a list of instructions. Every controlled
primitive has an instruction, and further ones compute and steer.
-/

namespace ScheduleExplorer.Script

/-- The data of a sent message. -/
inductive Payload where
  | value (value : Expr)
  | data (json : Json)

/-- An instruction. -/
inductive Instruction where
  | yield
  /-- Spawns a task and puts the number of its operation into a register. -/
  | spawn (task register : String)
  | join (targets : List Expr)
  | joinAny (targets : List Expr)
  | send (target event : Expr) (payload : Payload)
  /-- Receives a message and puts its type and its payload into registers. -/
  | receive (events : List Expr) (event payload : String)
  | createResource (register : String)
  | acquire (resource : Expr)
  | release (resource : Expr)
  | boolean (register : String)
  | integer (max : Expr) (register : String)
  /-- The message of a failing assertion ends with the value. -/
  | assert (condition : Expr) (message : String) (value : Option Expr)
  | panic (message : String)
  | setMonitor (monitor : Expr) (isHot : Bool)
  /-- A thread without a name calls a primitive in the name of this task. -/
  | escape
  /-- This task calls a primitive in the name of its parent. -/
  | borrow
  | set (register : String) (value : Expr)
  | put (cell value : Expr)
  /-- Repeats instructions a number of times, which is computed once. -/
  | times (count : Expr) (body : List Instruction)
  | forever (body : List Instruction)
  | branch (condition : Expr) (yes no : List Instruction)

namespace Instruction

/-- The name of an instruction; a monitor instruction is named for the state it sets. -/
def name : Instruction → String
  | yield => "yield"
  | spawn .. => "spawn"
  | join _ => "join"
  | joinAny _ => "join_any"
  | send .. => "send"
  | receive .. => "receive"
  | createResource _ => "resource"
  | acquire _ => "acquire"
  | release _ => "release"
  | boolean _ => "bool"
  | integer .. => "int"
  | assert .. => "assert"
  | panic _ => "panic"
  | setMonitor _ isHot => if isHot then "hot" else "cold"
  | escape => "escape"
  | borrow => "borrow"
  | set .. => "set"
  | put .. => "put"
  | times .. => "repeat"
  | forever _ => "loop"
  | branch .. => "if"

end Instruction

/-- The payload that data describes: a field `json` holds it as it is, and anything else is an
expression. -/
def Payload.ofJson : Json → Payload
  | .object [("json", content)] => data ((content.canonical? Json.maxDepth).getD .null)
  | json => value (Expr.ofJson json)

/-- The expressions of an array. -/
def exprs (json : Json) : List Expr :=
  (json.items?.getD []).map Expr.ofJson

/-- An expression that may be left out; null leaves it out too. -/
def optionalExpr : Json → Option Expr
  | .null => none
  | json => some (Expr.ofJson json)

/-- A name, empty if there is none. -/
def nameOf (json : Json) : String :=
  json.string?.getD ""

/-- Reads an instruction that contains no others from its name and its arguments. -/
def Instruction.simple? (name : String) (args : List Json) : Option Instruction :=
  let arg (i : Nat) : Json := args.getD i .null
  match name with
  | "yield" => some .yield
  | "spawn" => some (.spawn (nameOf (arg 0)) (nameOf (arg 1)))
  | "join" => some (.join (exprs (arg 0)))
  | "join_any" => some (.joinAny (exprs (arg 0)))
  | "send" => some (.send (Expr.ofJson (arg 0)) (Expr.ofJson (arg 1)) (Payload.ofJson (arg 2)))
  | "receive" => some (.receive (exprs (arg 0)) (nameOf (arg 1)) (nameOf (arg 2)))
  | "resource" => some (.createResource (nameOf (arg 0)))
  | "acquire" => some (.acquire (Expr.ofJson (arg 0)))
  | "release" => some (.release (Expr.ofJson (arg 0)))
  | "bool" => some (.boolean (nameOf (arg 0)))
  | "int" => some (.integer (Expr.ofJson (arg 0)) (nameOf (arg 1)))
  | "assert" =>
    some (.assert (Expr.ofJson (arg 0)) (nameOf (arg 1)) (optionalExpr (arg 2)))
  | "panic" => some (.panic (nameOf (arg 0)))
  | "panic_static" => some (.panic "static text")
  | "panic_any" => some (.panic "non-string panic payload")
  | "hot" => some (.setMonitor (Expr.ofJson (arg 0)) true)
  | "cold" => some (.setMonitor (Expr.ofJson (arg 0)) false)
  | "escape" => some .escape
  | "borrow" => some .borrow
  | "set" => some (.set (nameOf (arg 0)) (Expr.ofJson (arg 1)))
  | "put" => some (.put (Expr.ofJson (arg 0)) (Expr.ofJson (arg 1)))
  | _ => none

mutual

/-- Reads an instruction from an array that begins with its name. -/
def Instruction.ofJson? : Json → Option Instruction
  | .array [.string "repeat", count, .array body] =>
    (blockOfJson? body).map (.times (Expr.ofJson count))
  | .array [.string "loop", .array body] => (blockOfJson? body).map .forever
  | .array [.string "if", condition, .array yes, .array no] => do
    let yes ← blockOfJson? yes
    let no ← blockOfJson? no
    pure (.branch (Expr.ofJson condition) yes no)
  | .array [.string "if", condition, .array yes] =>
    (blockOfJson? yes).map fun yes => .branch (Expr.ofJson condition) yes []
  | .array (.string name :: args) => Instruction.simple? name args
  | _ => none

/-- Reads a list of instructions. -/
def blockOfJson? : List Json → Option (List Instruction)
  | [] => some []
  | first :: rest => do
    let first ← Instruction.ofJson? first
    let rest ← blockOfJson? rest
    pure (first :: rest)

end

end ScheduleExplorer.Script
