import ScheduleExplorer.Dpor.Frame
import ScheduleExplorer.Dpor.VectorClock

/-!
# Races of a path

The steps of a path get vector clocks along four kinds of cause: the previous step of the same
operation, the send of a received message, the creation of a started operation, and the last step
of an operation that a join found completed. Two dependent steps of different operations race when
neither clock is before the other; for each step only the closest earlier one is reported.
-/

namespace ScheduleExplorer

/-- A step of a path with its clock. -/
structure PathStep where
  frame : Nat
  op : OperationId
  step : PendingStep
  clock : VectorClock
deriving Inhabited

/-- Two steps that could have happened in the other order: the earlier one by its frame, the later
one by its operation. -/
structure Race where
  frame : Nat
  op : OperationId
deriving DecidableEq, Inhabited

namespace PathStep

/-- The operations that a join waits for and whose completion the frame shows. -/
def joined (frame : Frame) (step : PendingStep) : List OperationId :=
  let targets :=
    if step.joinTargets.isEmpty then [⟨step.targetId⟩] else step.joinTargets.toList
  targets.filter fun id => frame.pending[id.index]? = some none

/-- The clock of the last step of an operation, in steps held last first. -/
def clockOf? (op : OperationId) (earlier : List PathStep) : Option VectorClock :=
  (earlier.find? fun s => s.op = op).map (·.clock)

/-- The clocks that a step receives from steps of other operations; `earlier` holds the steps before
it, last first. -/
def causes (frame : Frame) (op : OperationId) (step : PendingStep) (earlier : List PathStep) :
    List VectorClock :=
  match step.kind with
  | .receive =>
    match frame.matchingSend with
    | some send => ((earlier.find? fun s => s.frame = send).map (·.clock)).toList
    | none => []
  | .start =>
    let created (s : PathStep) : Bool := s.step.kind = .create && s.step.targetId = op.index
    ((earlier.find? created).map (·.clock)).toList
  | .join => (joined frame step).filterMap fun target => clockOf? target earlier
  | _ => []

/-- The step of a frame with its clock, if the frame has one. -/
def ofFrame? (index : Nat) (earlier : List PathStep) (frame : Frame) : Option PathStep :=
  frame.selectedStep?.map fun (op, step) =>
    let own := (clockOf? op earlier).getD {}
    { frame := index, op, step
      clock := ((causes frame op step earlier).foldl VectorClock.merge own).tick op }

/-- The steps of a path from the frame with the given index on; a frame without a selected step has
none. -/
def timelineFrom (index : Nat) (earlier : List PathStep) : List Frame → List (Option PathStep)
  | [] => []
  | frame :: rest =>
    match ofFrame? index earlier frame with
    | some s => some s :: timelineFrom (index + 1) (s :: earlier) rest
    | none => none :: timelineFrom (index + 1) earlier rest

/-- The steps of a path, frame by frame. -/
def timeline (frames : List Frame) : List (Option PathStep) :=
  timelineFrom 0 [] frames

/-- Whether an earlier step races with a later one. -/
def racesWith (earlier later : PathStep) : Bool :=
  earlier.op ≠ later.op && earlier.step.isDependent later.step &&
    !earlier.clock.happensBefore later.clock

end PathStep

namespace Race

/-- The clock of every frame; a frame without a selected step has the empty one. -/
def clocks (frames : List Frame) : List VectorClock :=
  (PathStep.timeline frames).map fun s => (s.map (·.clock)).getD {}

/-- The race of each step with the closest earlier step; `earlier` holds those, last first. -/
def ofSteps (earlier : List PathStep) : List PathStep → List Race
  | [] => []
  | later :: rest =>
    match earlier.find? (·.racesWith later) with
    | some s => ⟨s.frame, later.op⟩ :: ofSteps (later :: earlier) rest
    | none => ofSteps (later :: earlier) rest

/-- The races of a path, in the order of their later steps. -/
def ofPath (frames : List Frame) : List Race :=
  ofSteps [] ((PathStep.timeline frames).filterMap id)

end Race

end ScheduleExplorer
