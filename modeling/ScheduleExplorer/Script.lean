import ScheduleExplorer.Program
import ScheduleExplorer.Script.Instruction

/-!
# Scripts

A script is a program under test that is written down as instructions. `Script.program` gives its
meaning: the local state of a body is a task with its registers and the code that is left, and the
common memory holds the cells and a log of what succeeded.
-/

namespace ScheduleExplorer

namespace Script

/-- Code that is left: a list of instructions, or a loop around one. -/
inductive Frame where
  | block (rest : List Instruction)
  | times (count : Nat) (body : List Instruction)
  | forever (body : List Instruction)

/-- The local state of a body. -/
structure Task where
  name : String
  /-- The operation that spawned the task; the main task has none. -/
  parent : Option OperationId := none
  registers : Registers := {}
  /-- The code that is left, innermost frame first. -/
  code : List Frame
  /-- The instruction whose reply is to come. -/
  awaiting : Option Instruction := none

/-- A line of the log. -/
structure LogEntry where
  operation : OperationId
  event : String
  values : List Json := []

/-- A line of the log as data. -/
def LogEntry.toJson (entry : LogEntry) : Json :=
  .array (.natural entry.operation.index :: .string entry.event :: entry.values)

/-- The memory that all tasks share. -/
structure Memory where
  cells : Cells := Vector.replicate 16 0
  /-- What has succeeded, in order. -/
  log : Array LogEntry := #[]

/-- Adds a line to the log. -/
def Memory.note (id : OperationId) (event : String) (values : List Json) (memory : Memory) :
    Memory :=
  { memory with log := memory.log.push { operation := id, event, values } }

namespace Task

/-- A task that begins with the given code. -/
def ofBody (name : String) (body : List Instruction) : Task :=
  { name, code := [.block body] }

/-- Puts a word into a register. -/
def setRegister (name : String) (value : Nat) (task : Task) : Task :=
  { task with registers := task.registers.set name (UInt64.ofNat value) }

/-- Takes the reply to an instruction into the registers, and gives the values to be logged. A
payload that is no natural number counts as zero. -/
def accept (task : Task) : Instruction → Reply → Task × List Json
  | .spawn _ register, .operation id =>
    (task.setRegister register id.index, [.natural id.index])
  | .receive _ event payload, .message message =>
    ((task.setRegister event message.event.code.toNat).setRegister payload
        (message.payload.natural?.getD 0),
      [.natural message.event.code.toNat, message.payload])
  | .createResource register, .resource id =>
    (task.setRegister register id.index, [.natural id.index])
  | .boolean register, .boolean value =>
    (task.setRegister register value.toNat, [.bool value])
  | .integer _ register, .integer value => (task.setRegister register value, [.natural value])
  | _, _ => (task, [])

/-- Completes the instruction whose reply has come. -/
def settle (id : OperationId) (reply : Reply) (task : Task) (memory : Memory) : Task × Memory :=
  match task.awaiting with
  | none => (task, memory)
  | some instruction =>
    let (task, values) := { task with awaiting := none }.accept instruction reply
    (task, memory.note id instruction.name values)

end Task

end Script

/-- A program under test as instructions. -/
structure Script where
  tasks : List (String × List Script.Instruction)
  /-- How the program describes its state at each level, if it does. -/
  hasher : Option (AbstractionLevel → Script.Expr) := none

namespace Script

/-- The code of a task; a name that is not there has none. -/
def body (script : Script) (task : String) : List Instruction :=
  (script.tasks.lookup task).getD []

/-- Starts an instruction: it computes, steers or calls a primitive. -/
def execute (script : Script) (id : OperationId) (task : Task) (memory : Memory)
    (instruction : Instruction) : Action Task × Memory :=
  let value (e : Expr) : UInt64 := e.eval id task.registers memory.cells
  let number (e : Expr) : Nat := (value e).toNat
  let operations (es : List Expr) : List OperationId := es.map fun e => ⟨number e⟩
  let call (request : Request Task) : Action Task × Memory :=
    (.call request { task with awaiting := some instruction }, memory)
  let enter (frame : Frame) : Action Task × Memory :=
    (.work { task with code := frame :: task.code }, memory)
  match instruction with
  | .yield => call .yield
  | .spawn name _ =>
    call (.spawn name
      { Task.ofBody name (script.body name) with
        parent := some id
        registers := task.registers })
  | .join targets => call (.join (operations targets))
  | .joinAny targets => call (.joinAny (operations targets))
  | .send target event payload =>
    let payload := match payload with
      | .value e => Json.natural (number e)
      | .data json => json
    call (.send ⟨number target⟩ { event := ⟨value event⟩, payload })
  | .receive events _ _ => call (.receive (events.map fun e => ⟨value e⟩))
  | .createResource _ => call .createResource
  | .acquire resource => call (.acquire ⟨number resource⟩)
  | .release resource => call (.release ⟨number resource⟩)
  | .boolean _ => call .boolean
  | .integer max _ => call (.integer (number max))
  | .assert condition message shown =>
    let suffix := (shown.map fun e => toString (number e)).getD ""
    call (.assert (value condition != 0) (message ++ suffix))
  | .panic message => (.raise message, memory)
  | .setMonitor monitor isHot => call (.setMonitor ⟨number monitor⟩ isHot)
  | .escape => call (.foreignCall none id)
  | .borrow =>
    match task.parent with
    | some parent => call (.foreignCall (some ("interleave-" ++ task.name)) parent)
    | none => (.work task, memory.note id instruction.name [])
  | .set register e => (.work (task.setRegister register (number e)), memory)
  | .put cell e => (.work task, { memory with cells := memory.cells.put (value cell) (value e) })
  | .times count body => enter (.times (number count) body)
  | .forever body => enter (.forever body)
  | .branch condition yes no => enter (.block (if value condition != 0 then yes else no))

/-- The next action of a task. A task whose code is used up ends. -/
def advance (script : Script) (id : OperationId) (task : Task) (memory : Memory) :
    Action Task × Memory :=
  match task.code with
  | [] => (.finish, memory.note id "end" [])
  | .block [] :: code => (.work { task with code }, memory)
  | .block (instruction :: rest) :: code =>
    script.execute id { task with code := .block rest :: code } memory instruction
  | .times 0 _ :: code => (.work { task with code }, memory)
  | .times (count + 1) body :: code =>
    (.work { task with code := .block body :: .times count body :: code }, memory)
  | .forever body :: code =>
    (.work { task with code := .block body :: .forever body :: code }, memory)

/-- The meaning of a script. -/
def program (script : Script) : Program Task Memory where
  main := Task.ofBody "main" (script.body "main")
  memory := {}
  resume id task reply memory :=
    let (task, memory) := task.settle id reply memory
    script.advance id task memory
  hasher := script.hasher.map fun levels memory =>
    StateHashes.ofLevels fun level => (levels level).eval ⟨0⟩ {} memory.cells

/-- Reads a script from an object that holds the instructions of each task. -/
def ofJson? (json : Json) : Option Script := do
  let fields ← json.fields?
  let tasks ← fields.mapM fun (name, code) => do
    let items ← code.items?
    let body ← blockOfJson? items
    pure (name, body)
  pure { tasks }

/-- Reads the four descriptions of the state of a program, one for each level. -/
def hasherOfJson (json : Json) : AbstractionLevel → Expr :=
  let levels := (json.items?.getD []).map fun item =>
    match item with
    | .object [("cell", index)] => .cell (Expr.ofJson index)
    | item => Expr.ofJson item
  let level (i : Nat) : Expr := levels.getD i (.literal 0)
  fun
    | .default => level 0
    | .inboxOnly => level 1
    | .custom => level 2
    | .full => level 3

end Script

end ScheduleExplorer
