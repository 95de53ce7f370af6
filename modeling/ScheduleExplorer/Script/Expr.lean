import ScheduleExplorer.Json
import ScheduleExplorer.Operation.Id

/-!
# Expressions of scripts

An expression is a word: it reads literals, the registers of a task, the cells of the common
memory and the number of the operation that runs the task.
-/

namespace ScheduleExplorer.Script

/-- The named words of a task; a register that was never set holds zero. -/
structure Registers where
  entries : List (String × UInt64) := []
deriving DecidableEq, Inhabited

namespace Registers

/-- The word in a register. -/
def get (name : String) (registers : Registers) : UInt64 :=
  (registers.entries.lookup name).getD 0

/-- Puts a word into a register. -/
def set (name : String) (value : UInt64) (registers : Registers) : Registers :=
  ⟨(name, value) :: registers.entries.filter (·.1 != name)⟩

end Registers

/-- The words that all tasks share. -/
abbrev Cells := Vector UInt64 16

/-- Cells are counted round and round. -/
def Cells.get (cell : UInt64) (cells : Cells) : UInt64 :=
  Vector.get cells ⟨cell.toNat % 16, Nat.mod_lt _ (by decide)⟩

/-- Puts a word into a cell. -/
def Cells.put (cell value : UInt64) (cells : Cells) : Cells :=
  Vector.set cells (cell.toNat % 16) value (Nat.mod_lt _ (by decide))

/-- An expression. -/
inductive Expr where
  | literal (value : UInt64)
  | register (name : String)
  /-- The number of the operation itself. -/
  | self
  | add (a b : Expr)
  | sub (a b : Expr)
  | equal (a b : Expr)
  | less (a b : Expr)
  | cell (cell : Expr)
deriving Inhabited

namespace Expr

/-- A difference that stops at zero. -/
def monus (a b : UInt64) : UInt64 :=
  if a < b then 0 else a - b

/-- The value of an expression. A sum wraps around, a difference stops at zero, and a comparison is
one or zero. -/
def eval (self : OperationId) (registers : Registers) (cells : Cells) : Expr → UInt64
  | literal value => value
  | register name => registers.get name
  | .self => UInt64.ofNat self.index
  | add a b => a.eval self registers cells + b.eval self registers cells
  | sub a b => monus (a.eval self registers cells) (b.eval self registers cells)
  | equal a b => if a.eval self registers cells = b.eval self registers cells then 1 else 0
  | less a b => if a.eval self registers cells < b.eval self registers cells then 1 else 0
  | cell c => cells.get (c.eval self registers cells)

/-- Reads an expression from data; what is no expression stands for zero. -/
def ofJson : Json → Expr
  | .natural value => literal (UInt64.ofNat value)
  | .string name => if name = "self" then .self else register name
  | .array [.string operator, a, b] =>
    match operator with
    | "+" => add (ofJson a) (ofJson b)
    | "-" => sub (ofJson a) (ofJson b)
    | "==" => equal (ofJson a) (ofJson b)
    | "<" => less (ofJson a) (ofJson b)
    | _ => literal 0
  | .array [.string "cell", index] => cell (ofJson index)
  | _ => literal 0

end Expr

end ScheduleExplorer.Script
