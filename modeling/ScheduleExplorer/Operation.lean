import ScheduleExplorer.Operation.Id
import ScheduleExplorer.Operation.Kind
import ScheduleExplorer.State.Level

/-!
# Operations

An operation is a unit of work that is scheduled as a whole between two scheduling points. It is
plain data: what it does next, whether it can run, and what it waits for.

`Transition` names every change of an operation, and `Operation.apply` carries it out. A transition
that does not fit the status leaves the status alone.
-/

namespace ScheduleExplorer

/-- A schedulable unit of work. -/
structure Operation where
  id : OperationId
  name : String
  kind : StepKind := .start
  status : Status := .none
  target : TargetSort := .task
  targetId : Nat
  /-- The scheduling step of the send whose message was received last. -/
  matchingSend : Option Nat := none
  dependencies : List OperationId := []
  joinTargets : List OperationId := []
  awaitedEvents : List EventType := []
  awaitedResource : Option ResourceId := none
  hashes : StateHashes := {}
deriving DecidableEq, Inhabited

namespace Operation

/-- An operation that is registered and not yet created. -/
def new (id : OperationId) (name : String) : Operation :=
  { id, name, targetId := id.index }

/-- Whether the operation may be scheduled. -/
def isEnabled (op : Operation) : Bool :=
  op.status.isEnabled

/-- The operation can run. -/
def create (op : Operation) : Operation :=
  { op with
    status := .enabled
    matchingSend := none
    dependencies := []
    awaitedEvents := []
    awaitedResource := none }

/-- An enabled operation waits for all, or for any one, of some operations to complete. -/
def waitTasks (ids : List OperationId) (all : Bool) (op : Operation) : Operation :=
  if op.isEnabled then
    { op with
      dependencies := ids
      status := if all then .blockedOnWaitAll else .blockedOnWaitAny }
  else op

/-- Whether a wait for operations is over, given which of them have completed. -/
def waitIsOver (isCompleted : OperationId → Bool) (op : Operation) : Bool :=
  match op.status with
  | .blockedOnWaitAll => op.dependencies.all isCompleted
  | .blockedOnWaitAny => op.dependencies.any isCompleted
  | _ => false

/-- An operation whose wait for other operations is over can run again. -/
def enableIfReady (isCompleted : OperationId → Bool) (op : Operation) : Operation :=
  if op.waitIsOver isCompleted then { op with dependencies := [], status := .enabled } else op

/-- An enabled operation waits for a message of one of some types; no type stands for all. -/
def waitEvents (events : List EventType) (op : Operation) : Operation :=
  if op.isEnabled then { op with awaitedEvents := events, status := .blockedOnReceive } else op

/-- Whether the operation waits for a message of the given type. -/
def awaitsEvent (event : EventType) (op : Operation) : Bool :=
  op.status = .blockedOnReceive && (op.awaitedEvents.isEmpty || op.awaitedEvents.contains event)

/-- A message sent at the given step has arrived or been taken. -/
def receive (sendStep : Nat) (op : Operation) : Operation :=
  { op with
    status := if op.status = .blockedOnReceive then .enabled else op.status
    awaitedEvents := []
    matchingSend := some sendStep }

/-- An enabled operation waits for a resource. -/
def waitResource (resource : ResourceId) (op : Operation) : Operation :=
  if op.isEnabled then
    { op with awaitedResource := some resource, status := .blockedOnResource }
  else op

/-- Whether the operation waits for the given resource. -/
def awaitsResource (resource : ResourceId) (op : Operation) : Bool :=
  op.status = .blockedOnResource && op.awaitedResource = some resource

/-- A resource has been released: who waits for it can run again. -/
def wakeOnRelease (resource : ResourceId) (op : Operation) : Operation :=
  if op.awaitsResource resource then { op with awaitedResource := none, status := .enabled }
  else op

/-- The operation has run to its end. -/
def complete (op : Operation) : Operation :=
  { op with
    status := .completed
    kind := .stop
    matchingSend := none
    dependencies := []
    joinTargets := []
    awaitedEvents := []
    awaitedResource := none }

/-- Announces the next step. -/
def announce (kind : StepKind) (target : TargetSort) (targetId : Nat) (op : Operation) :
    Operation :=
  { op with kind, target, targetId, joinTargets := [] }

/-- Announces a join. Its target is the first operation joined, and the joining operation itself
when it joins none. -/
def announceJoin (targets : List OperationId) (op : Operation) : Operation :=
  { op.announce .join .task (targets.head?.getD op.id).index with joinTargets := targets }

/-- Records what the program state looks like to the operation. -/
def recordState (hashes : StateHashes) (op : Operation) : Operation :=
  { op with hashes }

/-! ### How an operation waits -/

/-- An operation that waits for other operations is blocked on them. -/
theorem status_of_waitIsOver {op : Operation} {isCompleted : OperationId → Bool}
    (h : op.waitIsOver isCompleted = true) :
    op.status = .blockedOnWaitAll ∨ op.status = .blockedOnWaitAny := by
  unfold waitIsOver at h
  split at h
  · next hstatus => exact .inl hstatus
  · next hstatus => exact .inr hstatus
  · cases h

/-- An operation that waits for other operations is blocked. -/
theorem isBlocked_of_waitIsOver {op : Operation} {isCompleted : OperationId → Bool}
    (h : op.waitIsOver isCompleted = true) : op.status.isBlocked = true := by
  rcases status_of_waitIsOver h with hall | hany
  · rw [hall]; rfl
  · rw [hany]; rfl

/-- An operation that waits for a message is blocked on receiving it. -/
theorem status_of_awaitsEvent {op : Operation} {event : EventType}
    (h : op.awaitsEvent event = true) : op.status = .blockedOnReceive := by
  rw [awaitsEvent, Bool.and_eq_true, decide_eq_true_eq] at h
  exact h.1

/-- An operation that waits for a resource is blocked on it. -/
theorem status_of_awaitsResource {op : Operation} {resource : ResourceId}
    (h : op.awaitsResource resource = true) : op.status = .blockedOnResource := by
  rw [awaitsResource, Bool.and_eq_true, decide_eq_true_eq] at h
  exact h.1

end Operation

/-- A change of an operation. -/
inductive Transition where
  | create
  | waitTasks (ids : List OperationId) (all : Bool)
  | enableIfReady (completed : List OperationId)
  | waitEvents (events : List EventType)
  | receive (sendStep : Nat)
  | waitResource (resource : ResourceId)
  | wakeOnRelease (resource : ResourceId)
  | complete
  | announce (kind : StepKind) (target : TargetSort) (targetId : Nat)
  | announceJoin (targets : List OperationId)
  | recordState (hashes : StateHashes)

/-- Carries out a transition. -/
def Operation.apply (op : Operation) : Transition → Operation
  | .create => op.create
  | .waitTasks ids all => op.waitTasks ids all
  | .enableIfReady completed => op.enableIfReady completed.contains
  | .waitEvents events => op.waitEvents events
  | .receive sendStep => op.receive sendStep
  | .waitResource resource => op.waitResource resource
  | .wakeOnRelease resource => op.wakeOnRelease resource
  | .complete => op.complete
  | .announce kind target targetId => op.announce kind target targetId
  | .announceJoin targets => op.announceJoin targets
  | .recordState hashes => op.recordState hashes

namespace Operation

/-- The enabled operations of a table, in its order. -/
def enabledIds (ops : List Operation) : List OperationId :=
  (ops.filter isEnabled).map id

/-- Whether a table holds an enabled operation with the given number. -/
def isEnabledIn (ops : List Operation) (id : OperationId) : Bool :=
  ops.any fun op => op.id = id && op.isEnabled

/-- Whether a table holds an enabled operation. -/
def anyEnabled (ops : List Operation) : Bool :=
  ops.any isEnabled

end Operation

end ScheduleExplorer
