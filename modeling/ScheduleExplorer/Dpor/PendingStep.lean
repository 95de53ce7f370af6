import ScheduleExplorer.Dpor.OpSet
import ScheduleExplorer.Operation

/-!
# Pending steps and dependence

The step that an operation would take if it were scheduled. Two steps are dependent when both are
visible and act on the same object; only dependent steps can tell the order in which they run.
-/

namespace ScheduleExplorer

/-- The next step of an operation. -/
structure PendingStep where
  kind : StepKind
  target : TargetSort
  targetId : Nat
  joinTargets : OpSet := {}
deriving DecidableEq, Inhabited

namespace PendingStep

/-- The step that an operation has announced. -/
def ofOperation (op : Operation) : PendingStep where
  kind := op.kind
  target := op.target
  targetId := op.targetId
  joinTargets := .ofList op.joinTargets

/-- The operations that a step on a task concerns: a join concerns every operation that it waits
for. -/
def tasks (step : PendingStep) : OpSet :=
  if step.kind = .join && !step.joinTargets.isEmpty then step.joinTargets
  else .ofList [⟨step.targetId⟩]

/-- Whether the order of two steps can matter. -/
def isDependent (step other : PendingStep) : Bool :=
  step.kind.isVisible && other.kind.isVisible && step.target = other.target &&
    if step.target = .task then step.tasks.intersects other.tasks
    else step.targetId = other.targetId

/-- Dependence is symmetric. -/
theorem isDependent_comm (step other : PendingStep) :
    step.isDependent other = other.isDependent step := by
  have hids : decide (step.targetId = other.targetId) = decide (other.targetId = step.targetId) :=
    decide_eq_decide.mpr eq_comm
  by_cases htarget : step.target = other.target
  · rw [isDependent, isDependent, htarget, Bool.and_comm step.kind.isVisible,
      OpSet.intersects_comm, hids]
  · rw [isDependent, isDependent, decide_eq_false htarget, decide_eq_false (Ne.symm htarget),
      Bool.and_false, Bool.and_false, Bool.false_and, Bool.false_and]

end PendingStep

end ScheduleExplorer
