import ScheduleExplorer.Proofs.Execution.Waiting
import ScheduleExplorer.Proofs.Execution.Calls

/-!
# Outlooks

What the further run of a program depends on, apart from the iteration that schedules it: the
operations with their bodies and inboxes, the holders of the resources, the monitors that are known,
and the memory. Positions in the schedule are no part of it: neither the steps of sends nor what was
recorded of past states. `Execution.outlook` takes it from an execution.

A step changes one body with its operation (`Move`), and it reaches at most one thing besides
(`Reach`): an inbox, a body that begins, a resource, or what is new. A `Deed` is both, with what the
step does to the memory.
-/

namespace ScheduleExplorer

variable {γ σ μ : Type}

/-- An operation without the send that it has last received from and without a record of states. -/
def Operation.bare (op : Operation) : Operation :=
  { op with matchingSend := none, hashes := {} }

/-- An envelope without the step of its send. -/
def Envelope.bare (envelope : Envelope) : Envelope :=
  { envelope with sendStep := 0 }

/-- A slot without positions in the schedule. -/
def Slot.bare (slot : Slot σ) : Slot σ where
  operation := slot.operation.bare
  stage := slot.stage
  inbox := slot.inbox.map Envelope.bare

/-- What the further run of a program depends on. -/
@[ext]
structure Outlook (σ μ : Type) where
  /-- The number of operations. -/
  size : Nat
  slots : OperationId → Option (Slot σ)
  holders : List (Option OperationId)
  knows : MonitorId → Bool
  memory : μ

namespace Outlook

/-- Where the body of an operation stands. -/
def stage? (id : OperationId) (o : Outlook σ μ) : Option (Stage σ) :=
  (o.slots id).map Slot.stage

/-- Whether a number belongs to a completed operation. -/
def isCompleted (o : Outlook σ μ) (id : OperationId) : Bool :=
  (o.slots id).any (·.operation.status.isCompleted)

/-- Whether a join is over. -/
def isJoined (targets : List OperationId) (all : Bool) (o : Outlook σ μ) : Bool :=
  joinIsOver o.isCompleted targets all

/-- The holder of a resource. -/
def holder? (resource : ResourceId) (o : Outlook σ μ) : Option OperationId :=
  (o.holders[resource.index]?).join

end Outlook

/-- The outlook of an execution. -/
def Execution.outlook (ex : Execution γ σ μ) : Outlook σ μ where
  size := ex.iteration.operations.length
  slots id := (ex.slot? id).map Slot.bare
  holders := ex.holders
  knows := ex.iteration.monitors.isKnown
  memory := ex.memory

/-! ### What is acted on -/

/-- What a step acts on: a task, an inbox or a resource. -/
abbrev Object := TargetSort × Nat

/-- What a primitive acts on, apart from a join, which looks at other operations. -/
def Primitive.object? (id : OperationId) : Primitive σ → Option Object
  | .spawn child _ => some (.task, child.index)
  | .send target _ => some (.inbox, target.index)
  | .receive _ => some (.inbox, id.index)
  | .acquire resource | .release resource => some (.resource, resource.index)
  | .start | .resume | .join .. => none

/-- Announces a primitive. -/
def Primitive.announce (id : OperationId) : Primitive σ → Operation → Operation
  | .start => fun op => op
  | .resume => Operation.announce .yield .task id.index
  | .spawn child _ => Operation.announce .create .task child.index
  | .join targets _ => Operation.announceJoin targets
  | .send target _ => Operation.announce .send .inbox target.index
  | .receive _ => Operation.announce .receive .inbox id.index
  | .acquire resource => Operation.announce .acquire .resource resource.index
  | .release resource => Operation.announce .release .resource resource.index

/-! ### Moves -/

/-- What a step does to the body that takes it, and to its operation and its inbox. -/
inductive Move (σ : Type) where
  /-- The body goes on with a reply. -/
  | runs (next : σ) (reply : Reply)
  /-- The body goes on with a message, which leaves the inbox. -/
  | takes (rest : Inbox) (next : σ) (reply : Reply)
  /-- The body announces its next step. -/
  | parks (primitive : Primitive σ) (next : σ)
  /-- The operation waits for others. -/
  | joins (targets : List OperationId) (all : Bool) (next : σ)
  /-- The operation waits for a message. -/
  | awaits (events : List EventType)
  /-- The operation waits for a resource. -/
  | queues (resource : ResourceId)
  | finishes
  /-- The body gives up. -/
  | leaves

namespace Move

/-- Whether the turn is passed on after the move. -/
def isPoint : Move σ → Bool
  | runs .. | takes .. | leaves => false
  | parks .. | joins .. | awaits _ | queues _ | finishes => true

/-- What the move itself acts on. -/
def object? (id : OperationId) : Move σ → Option Object
  | takes .. | awaits _ => some (.inbox, id.index)
  | queues resource => some (.resource, resource.index)
  | runs .. | parks .. | joins .. | finishes | leaves => none

/-- Carries the move out. -/
def apply (id : OperationId) (slot : Slot σ) : Move σ → Slot σ
  | runs next reply => { slot with stage := .running next reply }
  | takes rest next reply =>
    { operation := { slot.operation.receive 0 with matchingSend := none }
      stage := .running next reply
      inbox := rest }
  | parks primitive next =>
    { slot with
      operation := primitive.announce id slot.operation
      stage := .parked primitive next }
  | joins targets all next =>
    { slot with
      operation := slot.operation.waitTasks targets all
      stage := .parked .resume next }
  | awaits events => { slot with operation := slot.operation.waitEvents events }
  | queues resource => { slot with operation := slot.operation.waitResource resource }
  | finishes => { slot with operation := slot.operation.complete, stage := .ended }
  | leaves => { slot with stage := .ended }

end Move

/-! ### Reaches -/

/-- A message of the given type has arrived: who waits for it can run again. -/
def Operation.rouse (event : EventType) (op : Operation) : Operation :=
  if op.awaitsEvent event then { op.receive 0 with matchingSend := none } else op

/-- What a step does besides, or what passing the turn on does. -/
inductive Reach (σ : Type) where
  | nothing
  | posts (target : OperationId) (envelope : Envelope)
  | begins (child : OperationId) (body : σ)
  | holds (resource : ResourceId) (holder : OperationId)
  | frees (resource : ResourceId)
  /-- A new resource. -/
  | creates
  /-- A new operation. -/
  | enrolls (name : String)
  /-- The operations whose wait for others is over are enabled. -/
  | wakes (isCompleted : OperationId → Bool)

namespace Reach

/-- What is reached. -/
def object? : Reach σ → Option Object
  | posts target _ => some (.inbox, target.index)
  | begins child _ => some (.task, child.index)
  | holds resource _ | frees resource => some (.resource, resource.index)
  | nothing | creates | enrolls _ | wakes _ => none

/-- What becomes of the operation with a number, its body and its inbox. -/
def touch (id : OperationId) (slot : Slot σ) : Reach σ → Slot σ
  | posts target envelope =>
    if id = target then
      { slot with
        operation := slot.operation.rouse envelope.message.event
        inbox := slot.inbox ++ [envelope] }
    else slot
  | begins child body =>
    if id = child then
      { slot with operation := slot.operation.create, stage := .parked .start body }
    else slot
  | frees resource => { slot with operation := slot.operation.wakeOnRelease resource }
  | wakes isCompleted => { slot with operation := slot.operation.enableIfReady isCompleted }
  | nothing | holds .. | creates | enrolls _ => slot

/-- What becomes of a place, when there are `size` operations. -/
def place (size : Nat) (id : OperationId) (slot : Option (Slot σ)) (reach : Reach σ) :
    Option (Slot σ) :=
  match reach with
  | enrolls name =>
    if id.index = size then some ⟨Operation.new id name, .announced, []⟩ else slot
  | _ => slot.map fun slot => reach.touch id slot

/-- What becomes of the holders. -/
def hold (holders : List (Option OperationId)) : Reach σ → List (Option OperationId)
  | holds resource holder => holders.set resource.index (some holder)
  | frees resource => holders.set resource.index none
  | creates => holders ++ [none]
  | nothing | posts .. | begins .. | enrolls _ | wakes _ => holders

/-- The number of operations that are new. -/
def growth : Reach σ → Nat
  | enrolls _ => 1
  | _ => 0

/-- The number of resources that are new. -/
def gain : Reach σ → Nat
  | creates => 1
  | _ => 0

/-- Carries it out. -/
def apply (reach : Reach σ) (o : Outlook σ μ) : Outlook σ μ :=
  { o with
    size := o.size + reach.growth
    slots := fun id => reach.place o.size id (o.slots id)
    holders := reach.hold o.holders }

end Reach

/-- What a step does. -/
structure Deed (σ μ : Type) where
  move : Move σ
  reach : Reach σ := .nothing
  memory : μ → μ := id

namespace Outlook

/-- Moves the body of an operation. -/
def moved (id : OperationId) (move : Move σ) (o : Outlook σ μ) : Outlook σ μ :=
  { o with slots := fun other =>
      (o.slots other).map fun slot => if other = id then move.apply id slot else slot }

/-- Changes the memory. -/
def remember (change : μ → μ) (o : Outlook σ μ) : Outlook σ μ :=
  { o with memory := change o.memory }

/-- Carries out what a step does. -/
def perform (id : OperationId) (deed : Deed σ μ) (o : Outlook σ μ) : Outlook σ μ :=
  ((deed.reach.apply o).moved id deed.move).remember deed.memory

/-- The outlook once the waits for other operations were examined. -/
def ready (o : Outlook σ μ) : Outlook σ μ :=
  (Reach.wakes o.isCompleted).apply o

end Outlook

/-! ### Waking operations -/

namespace Operation

/-- A change that enables the operations that wait for something, and no others. -/
structure IsWaking (awaits : Operation → Bool) (change : Operation → Operation) : Prop where
  blocked : ∀ op, awaits op = true → op.status.isBlocked = true
  enabled : ∀ op, awaits op = true → (change op).status = .enabled
  same : ∀ op, awaits op = false → change op = op

namespace IsWaking

variable {awaits waits : Operation → Bool} {change other : Operation → Operation}

/-- An enabled operation is not woken. -/
theorem of_enabled (h : IsWaking awaits change) {op : Operation} (henabled : op.status = .enabled) :
    change op = op := by
  apply h.same
  rw [Bool.eq_false_iff]
  intro hawaits
  have hblocked := h.blocked op hawaits
  rw [henabled] at hblocked
  cases hblocked

/-- Waking an operation neither completes it nor undoes its end. -/
theorem isCompleted_eq (h : IsWaking awaits change) (op : Operation) :
    (change op).status.isCompleted = op.status.isCompleted := by
  cases hawaits : awaits op with
  | false => rw [h.same op hawaits]
  | true =>
    rw [h.enabled op hawaits, Status.isCompleted_of_isBlocked (h.blocked op hawaits)]
    rfl

/-- An operation waits for one thing at a time, so changes that wake it for different ones may come
in either order. -/
theorem comm (h : IsWaking awaits change) (hother : IsWaking waits other) (op : Operation)
    (hapart : awaits op = true → waits op = false) : change (other op) = other (change op) := by
  cases hawaits : awaits op with
  | true => rw [hother.same op (hapart hawaits), hother.of_enabled (h.enabled op hawaits)]
  | false =>
    rw [h.same op hawaits]
    cases hwaits : waits op with
    | true => exact h.of_enabled (hother.enabled op hwaits)
    | false => rw [hother.same op hwaits, h.same op hawaits]

end IsWaking

/-- A message wakes the operations that await its event. -/
theorem isWaking_rouse (event : EventType) : IsWaking (awaitsEvent event) (rouse event) where
  blocked op h := by simp [status_of_awaitsEvent h, Status.isBlocked]
  enabled op h := by simp [rouse, h, receive, status_of_awaitsEvent h]
  same op h := by simp [rouse, h]

/-- A release wakes the operations that wait for the resource. -/
theorem isWaking_wakeOnRelease (resource : ResourceId) :
    IsWaking (awaitsResource resource) (wakeOnRelease resource) where
  blocked op h := by simp [status_of_awaitsResource h, Status.isBlocked]
  enabled op h := by simp [wakeOnRelease, h]
  same op h := by simp [wakeOnRelease, h]

/-- Completions wake the operations whose wait they end. -/
theorem isWaking_enableIfReady (isCompleted : OperationId → Bool) :
    IsWaking (waitIsOver isCompleted) (enableIfReady isCompleted) where
  blocked _ h := isBlocked_of_waitIsOver h
  enabled op h := by simp [enableIfReady, h]
  same op h := by simp [enableIfReady, h]

variable (op : Operation) (event : EventType) (resource : ResourceId)
  (isCompleted : OperationId → Bool)

/-- A message and a release wake in either order. -/
theorem rouse_wakeOnRelease :
    (op.wakeOnRelease resource).rouse event = (op.rouse event).wakeOnRelease resource := by
  apply (isWaking_rouse event).comm (isWaking_wakeOnRelease resource)
  intro hawaits
  simp [awaitsResource, status_of_awaitsEvent hawaits]

/-- A message and completions wake in either order. -/
theorem rouse_enableIfReady :
    (op.enableIfReady isCompleted).rouse event = (op.rouse event).enableIfReady isCompleted := by
  apply (isWaking_rouse event).comm (isWaking_enableIfReady isCompleted)
  intro hawaits
  simp [waitIsOver, status_of_awaitsEvent hawaits]

/-- A release and completions wake in either order. -/
theorem wakeOnRelease_enableIfReady :
    (op.enableIfReady isCompleted).wakeOnRelease resource =
      (op.wakeOnRelease resource).enableIfReady isCompleted := by
  apply (isWaking_wakeOnRelease resource).comm (isWaking_enableIfReady isCompleted)
  intro hawaits
  simp [waitIsOver, status_of_awaitsResource hawaits]

/-- Two releases wake in either order. -/
theorem wakeOnRelease_comm {other : ResourceId} (hne : resource ≠ other) :
    (op.wakeOnRelease other).wakeOnRelease resource =
      (op.wakeOnRelease resource).wakeOnRelease other := by
  apply (isWaking_wakeOnRelease resource).comm (isWaking_wakeOnRelease other)
  intro hawaits
  simp only [awaitsResource, Bool.and_eq_true, decide_eq_true_eq] at hawaits
  simp [awaitsResource, hawaits.2, hne]

/-- A body that begins waits for nothing, whatever its operation waited for. -/
theorem create_rouse : (op.rouse event).create = op.create := by
  unfold rouse
  split <;> rfl

/-- It waits for no resource either. -/
theorem create_wakeOnRelease : (op.wakeOnRelease resource).create = op.create := by
  unfold wakeOnRelease
  split <;> rfl

/-- It waits for no operation either. -/
theorem create_enableIfReady : (op.enableIfReady isCompleted).create = op.create := by
  unfold enableIfReady
  split <;> rfl

end Operation

end ScheduleExplorer
