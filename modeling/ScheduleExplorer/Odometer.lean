/-!
# Odometers

An odometer enumerates sequences of choices depth first. It holds the choices of the last sequence,
each with its number of options, and a cursor: choices ahead of the cursor are replayed, and a
choice beyond them is new. `advance` moves on to the next sequence, in which the last choice with
an untried option takes its next one and all later choices are dropped.

The choices that the cursor has passed are held last first, so that both moves of the cursor and
`advance` work at the head of a list.
-/

namespace ScheduleExplorer

/-- A choice and its number of options. -/
structure Choice where
  options : Nat
  index : Nat
deriving DecidableEq, Inhabited

namespace Choice

/-- Whether an option after the current one is left. -/
def hasUntried (choice : Choice) : Bool :=
  choice.index + 1 < choice.options

end Choice

/-- A sequence of choices with a cursor. -/
structure Odometer where
  /-- The choices before the cursor, last first. -/
  passed : List Choice := []
  /-- The choices from the cursor on, in order. -/
  ahead : List Choice := []
deriving DecidableEq, Inhabited

namespace Odometer

/-- All choices, in order. -/
def toList (odometer : Odometer) : List Choice :=
  odometer.passed.reverse ++ odometer.ahead

/-- The number of choices. -/
def size (odometer : Odometer) : Nat :=
  odometer.passed.length + odometer.ahead.length

/-- The choices of an odometer in order are as many as it holds. -/
@[simp] theorem length_toList (odometer : Odometer) :
    odometer.toList.length = odometer.size := by
  simp [toList, size]

/-- Whether there is no choice. -/
def isEmpty (odometer : Odometer) : Bool :=
  odometer.passed.isEmpty && odometer.ahead.isEmpty

/-- The option recorded at the cursor, if the recorded choice has the given number of options. -/
def recorded? (options : Nat) (odometer : Odometer) : Option Nat :=
  match odometer.ahead with
  | choice :: _ => if choice.options = options then some choice.index else none
  | [] => none

/-- Takes the choice at the cursor. Where none with the given number of options is recorded, the
fresh option is taken and what was recorded from here on is dropped. -/
def next (options fresh : Nat) (odometer : Odometer) : Nat × Odometer :=
  match odometer.recorded? options with
  | some index => (index, ⟨⟨options, index⟩ :: odometer.passed, odometer.ahead.tail⟩)
  | none => (fresh, ⟨⟨options, fresh⟩ :: odometer.passed, []⟩)

/-- Takes the choice at the cursor among at least one option. A fresh option is drawn only where none
is recorded; one that is out of range stands for the last. -/
def draw {σ : Type} (options : Nat) (fresh : Nat → σ → Nat × σ) (odometer : Odometer) (state : σ) :
    Nat × Odometer × σ :=
  let options := max options 1
  match odometer.recorded? options with
  | some _ =>
    let (index, odometer) := odometer.next options 0
    (index, odometer, state)
  | none =>
    let (option, state) := fresh options state
    let (index, odometer) := odometer.next options (min option (options - 1))
    (index, odometer, state)

/-- Drops the choices from the cursor on. -/
def truncate (odometer : Odometer) : Odometer :=
  { odometer with ahead := [] }

/-- Moves the cursor to the first choice. -/
def rewind (odometer : Odometer) : Odometer :=
  ⟨[], odometer.toList⟩

/-- The cursor moves and the choices stay. -/
@[simp] theorem toList_rewind (odometer : Odometer) :
    odometer.rewind.toList = odometer.toList := by
  simp [rewind, toList]

/-- The next sequence of choices, with the choices held last first: exhausted choices are dropped
from the end, and the one before them takes its next option. -/
def advanceReversed : List Choice → List Choice
  | [] => []
  | choice :: earlier =>
    if choice.hasUntried then { choice with index := choice.index + 1 } :: earlier
    else advanceReversed earlier

/-- Moves on to the next sequence and its first choice; the result has no choices when every
sequence has been seen. -/
def advance (odometer : Odometer) : Odometer :=
  ⟨[], (advanceReversed odometer.toList.reverse).reverse⟩

end Odometer

end ScheduleExplorer
