import ScheduleExplorer.Fault
import ScheduleExplorer.Json
import ScheduleExplorer.Text.Blank

/-!
# Abstraction levels

A program state is summarized by one word at each of four levels of detail. Strategies that learn
compare states at one of them.
-/

namespace ScheduleExplorer

/-- A level of detail at which program states are compared. -/
inductive AbstractionLevel where
  | default
  | inboxOnly
  | custom
  | full
deriving DecidableEq, Inhabited

namespace AbstractionLevel

/-- Every level, in order. -/
def all : List AbstractionLevel :=
  [default, inboxOnly, custom, full]

/-- The name of a level. -/
def name : AbstractionLevel → String
  | default => "default"
  | inboxOnly => "inbox-only"
  | custom => "custom"
  | full => "full"

/-- The level with exactly the given name. -/
def ofName? (name : String) : Option AbstractionLevel :=
  all.find? (·.name == name)

/-- Reads a level as a user writes it: blanks around it and the case of ASCII letters do not count,
and `inbox` is short for `inbox-only`. -/
def parse (text : String) : Except Fault AbstractionLevel :=
  let name := String.ofList (Text.lowerAscii (Text.trim text.toList))
  match if name = "inbox" then some inboxOnly else ofName? name with
  | some level => .ok level
  | none => .error (.invalidConfig s!"unknown abstraction level '{name}'")

/-- Reads a level from JSON data, where only the exact name counts. -/
def ofJson? (json : Json) : Option AbstractionLevel :=
  json.unitName?.bind ofName?

end AbstractionLevel

/-- One word per abstraction level, which stand for the state of a program. -/
structure StateHashes where
  default : UInt64 := 0
  inboxOnly : UInt64 := 0
  custom : UInt64 := 0
  full : UInt64 := 0
deriving DecidableEq, Inhabited

namespace StateHashes

/-- The four words that a function of the level gives. -/
def ofLevels (f : AbstractionLevel → UInt64) : StateHashes :=
  ⟨f .default, f .inboxOnly, f .custom, f .full⟩

/-- The word at one level. -/
def atLevel (hashes : StateHashes) : AbstractionLevel → UInt64
  | .default => hashes.default
  | .inboxOnly => hashes.inboxOnly
  | .custom => hashes.custom
  | .full => hashes.full

end StateHashes

end ScheduleExplorer
