import ScheduleExplorer.Fault
import ScheduleExplorer.Text.Blank
import ScheduleExplorer.Text.Natural

/-!
# Selecting a strategy by name

A strategy is selected by a short text: a name, for some names a number after a colon, or two
selections joined by a plus sign. `Selection.parse` reads such a text and `Selection.text` writes
the full form of a selection.
-/

namespace ScheduleExplorer

/-- A selected strategy. -/
inductive Selection where
  | random
  /-- A random walk that leaves an operation only if every one of some coins shows tails. -/
  | sticky (flips : Nat)
  /-- Priorities that change at a number of points. -/
  | priority (points : Nat)
  /-- Priorities up to the step bound of unfair strategies, and then a random walk. -/
  | fairPriority (points : Nat)
  | delayBounding (delays : Nat)
  | iterativeDelayBounding (delays : Nat)
  | depthFirst
  | dpor
  | randomDpor
  | qLearning
  | novelty
  | combo (lead rest : Selection)
deriving DecidableEq, Inhabited

namespace Selection

/-- The number of coins when none is given. -/
def defaultFlips : Nat := 3

/-- The number of change points when none is given. -/
def defaultPoints : Nat := 10

/-- The number of delays when none is given. -/
def defaultDelays : Nat := 10

/-- The number of delays an iterative search begins with when none is given. -/
def defaultInitialDelays : Nat := 1

/-- Whether a selection is a combination. -/
def isCombo : Selection → Bool
  | combo .. => true
  | _ => false

/-- Whether the strategy enumerates its search space. -/
def isExhaustive : Selection → Bool
  | depthFirst | dpor => true
  | _ => false

/-- The text of a selection, with every number written out. -/
def text : Selection → String
  | random => "random"
  | sticky flips => s!"prob:{flips}"
  | priority points => s!"pct:{points}"
  | fairPriority points => s!"fairpct:{points}"
  | delayBounding delays => s!"db:{delays}"
  | iterativeDelayBounding delays => s!"idb:{delays}"
  | depthFirst => "dfs"
  | dpor => "dpor"
  | randomDpor => "rdpor"
  | qLearning => "rl"
  | novelty => "greedy"
  | combo lead rest => "combo:" ++ lead.text ++ "+" ++ rest.text

/-- A text is no selection. -/
def refuse {α : Type} (input : List Char) (reason : String) : Except Fault α :=
  .error (.invalidStrategy (String.ofList input) reason)

/-- Reads the number after the colon, or takes the default without a colon. -/
def parameter (input : List Char) (default : Nat) : Option (List Char) → Except Fault Nat
  | none => .ok default
  | some digits =>
    match Text.readWord? digits with
    | some n => .ok n
    | none => refuse input s!"'{String.ofList digits}' is not a non-negative integer"

/-- A selection that takes no number. -/
def plain (input : List Char) (name : String) (selection : Selection) :
    Option (List Char) → Except Fault Selection
  | none => .ok selection
  | some _ => refuse input s!"'{name}' takes no parameter"

/-- Reads a selection other than a combination from its name and what follows the colon. -/
def single (input : List Char) (name : String) (rest : Option (List Char)) :
    Except Fault Selection :=
  if rest.any (·.contains ':') then refuse input "too many parameters"
  else
    match name with
    | "random" => plain input name random rest
    | "prob" => (parameter input defaultFlips rest).map sticky
    | "pct" => (parameter input defaultPoints rest).map priority
    | "fairpct" => (parameter input defaultPoints rest).map fairPriority
    | "db" => (parameter input defaultDelays rest).map delayBounding
    | "idb" => (parameter input defaultInitialDelays rest).map iterativeDelayBounding
    | "dfs" => plain input name depthFirst rest
    | "dpor" => plain input name dpor rest
    | "rdpor" => plain input name randomDpor rest
    | "rl" => plain input name qLearning rest
    | "greedy" => plain input name novelty rest
    | "" => refuse input "empty strategy name"
    | other => refuse input s!"unknown strategy '{other}'"

/-- A name as it is compared: the case of ASCII letters does not count. -/
def nameOf (letters : List Char) : String :=
  String.ofList (Text.lowerAscii letters)

/-- A combination without two parts. -/
def incomplete (input : List Char) : Except Fault Selection :=
  refuse input "combo needs '<prefix>+<suffix>'"

/-- Reads a selection. Blanks around it do not count, and the first plus sign of a combination ends
its lead. -/
def ofChars (input : List Char) : Except Fault Selection :=
  match _hcolon : Text.splitFirst? ':' (Text.trim input) with
  | none =>
    let name := nameOf (Text.trim input)
    if name = "combo" then incomplete input else single input name none
  | some (name, parts) =>
    if nameOf name = "combo" then
      match _hplus : Text.splitFirst? '+' parts with
      | none => incomplete input
      | some (lead, rest) =>
        match ofChars lead with
        | .error fault => .error fault
        | .ok lead => (ofChars rest).map (combo lead)
    else single input (nameOf name) (some parts)
termination_by input.length
decreasing_by
  all_goals
    have hname := Text.length_lt_of_splitFirst? _hcolon
    have hpart := Text.length_lt_of_splitFirst? _hplus
    have htrim := Text.length_trim_le input
    omega

/-- Reads a selection from text. -/
def parse (input : String) : Except Fault Selection :=
  ofChars input.toList

end Selection

end ScheduleExplorer
