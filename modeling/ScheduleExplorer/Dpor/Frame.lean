import ScheduleExplorer.Dpor.PendingStep
import ScheduleExplorer.Odometer

/-!
# Choice frames

A frame describes the state before one scheduling decision of a path: which operations were enabled
and what each would have done, which one was selected, and which others are still to be tried here,
have been tried, or sleep because every schedule that begins with them has been covered elsewhere.
-/

namespace ScheduleExplorer

/-- The state before a scheduling decision, and what the search knows about the decision. -/
structure Frame where
  enabled : OpSet := {}
  backtrack : OpSet := {}
  done : OpSet := {}
  sleep : OpSet := {}
  /-- The pending step of each operation; a completed one has none. -/
  pending : List (Option PendingStep) := []
  selected : Option OperationId := none
  /-- The step of the send whose message the selected operation received last. -/
  matchingSend : Option Nat := none
  /-- The values chosen between this decision and the next one. -/
  choices : Odometer := {}
deriving Inhabited

namespace Frame

/-- Enters one operation into a frame. -/
def enter (frame : Frame) (op : Operation) : Frame :=
  let frame := if op.isEnabled then { frame with enabled := frame.enabled.insert op.id } else frame
  if op.status.isCompleted then frame
  else { frame with pending := frame.pending.set op.id.index (some (.ofOperation op)) }

/-- The frame of a table of operations, before anything is selected. -/
def capture (ops : List Operation) : Frame :=
  ops.foldl enter { pending := List.replicate ops.length none }

/-- The pending step of an operation. -/
def pendingOf? (id : OperationId) (frame : Frame) : Option PendingStep :=
  frame.pending[id.index]?.join

/-- The selected operation and its step. -/
def selectedStep? (frame : Frame) : Option (OperationId × PendingStep) := do
  let id ← frame.selected
  let step ← frame.pendingOf? id
  pure (id, step)

/-- The operations that are still to be tried here. -/
def unexplored (frame : Frame) : OpSet :=
  (frame.backtrack.difference frame.done).difference frame.sleep

/-- The enabled operations that do not sleep. -/
def awake (frame : Frame) : OpSet :=
  frame.enabled.difference frame.sleep

/-- The operations that sleep in the next frame: those that slept or have been tried here, except
the selected one and those whose step depends on the selected step. -/
def inheritedSleep (frame : Frame) : OpSet :=
  match frame.selectedStep? with
  | none => {}
  | some (selected, step) =>
    let candidates := (frame.sleep.union frame.done).erase selected
    .ofList (candidates.toList.filter fun id =>
      match frame.pendingOf? id with
      | some other => !other.isDependent step
      | none => false)

/-- Selects another operation, whose choices of values begin anew. -/
def select (id : OperationId) (frame : Frame) : Frame :=
  { frame with selected := some id, matchingSend := none, choices := {} }

end Frame

end ScheduleExplorer
