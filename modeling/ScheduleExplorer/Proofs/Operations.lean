import Mathlib.Tactic.ByContra
import ScheduleExplorer.Operation

/-!
# The fields of an operation and its status

Whatever transitions an operation goes through, and in whatever status they find it, the fields that
say what it waits for agree with its status. What a transition can make of an operation is said once,
by `Changes`; a transition that does not fit the status makes nothing of it.
-/

namespace ScheduleExplorer

/-- The changes of a status in the life of an operation: a blocked operation goes back to being
enabled, and completion is reached from everywhere. -/
inductive Status.Leads : Status → Status → Prop where
  | created : Leads .none .enabled
  | blocks {status : Status} (h : status.isBlocked = true) : Leads .enabled status
  | wakes {status : Status} (h : status.isBlocked = true) : Leads status .enabled
  | completes (status : Status) : Leads status .completed

/-- A completed operation does not change its status any more. -/
theorem Status.Leads.eq_completed {status : Status} (h : Leads .completed status) :
    status = .completed := by
  cases h with
  | wakes hblocked => simp [isBlocked] at hblocked
  | completes => rfl

namespace Operation

/-- The operation after some transitions, the first one first. -/
def after (op : Operation) (transitions : List Transition) : Operation :=
  transitions.foldl apply op

/-- What an operation becomes by a transition other than its creation. -/
inductive Changes (op : Operation) : Operation → Prop where
  | ignores : Changes op op
  | waitsTasks (ids : List OperationId) (all : Bool) (h : op.status = .enabled) :
    Changes op { op with
      dependencies := ids
      status := if all then .blockedOnWaitAll else .blockedOnWaitAny }
  | stopsWaiting (h : op.status = .blockedOnWaitAll ∨ op.status = .blockedOnWaitAny) :
    Changes op { op with dependencies := [], status := .enabled }
  | waitsEvents (events : List EventType) (h : op.status = .enabled) :
    Changes op { op with awaitedEvents := events, status := .blockedOnReceive }
  | receives (sendStep : Nat) : Changes op (op.receive sendStep)
  | waitsResource (resource : ResourceId) (h : op.status = .enabled) :
    Changes op { op with awaitedResource := some resource, status := .blockedOnResource }
  | getsResource (h : op.status = .blockedOnResource) :
    Changes op { op with awaitedResource := none, status := .enabled }
  | completes : Changes op op.complete
  | announces (kind : StepKind) (target : TargetSort) (targetId : Nat) :
    Changes op (op.announce kind target targetId)
  | announcesJoin (targets : List OperationId) : Changes op (op.announceJoin targets)
  | records (hashes : StateHashes) : Changes op (op.recordState hashes)

variable {op next : Operation}

/-- Looking whether a wait is over, by any condition on the operations waited for. -/
theorem changes_enableIfReady (isCompleted : OperationId → Bool) (op : Operation) :
    op.Changes (op.enableIfReady isCompleted) := by
  rw [enableIfReady]
  split
  · next hover => exact .stopsWaiting (status_of_waitIsOver hover)
  · exact .ignores

/-- Every transition other than creation is one of the changes. -/
theorem changes_apply (op : Operation) {transition : Transition} (h : transition ≠ .create) :
    op.Changes (op.apply transition) := by
  cases transition with
  | create => exact absurd rfl h
  | waitTasks ids all =>
    rw [apply, waitTasks]
    split
    · next henabled => exact .waitsTasks ids all (Status.isEnabled_iff.mp henabled)
    · exact .ignores
  | enableIfReady completed => exact changes_enableIfReady _ op
  | waitEvents events =>
    rw [apply, waitEvents]
    split
    · next henabled => exact .waitsEvents events (Status.isEnabled_iff.mp henabled)
    · exact .ignores
  | receive sendStep => exact .receives sendStep
  | waitResource resource =>
    rw [apply, waitResource]
    split
    · next henabled => exact .waitsResource resource (Status.isEnabled_iff.mp henabled)
    · exact .ignores
  | wakeOnRelease resource =>
    rw [apply, wakeOnRelease]
    split
    · next hawaits => exact .getsResource (status_of_awaitsResource hawaits)
    · exact .ignores
  | complete => exact .completes
  | announce kind target targetId => exact .announces kind target targetId
  | announceJoin targets => exact .announcesJoin targets
  | recordState hashes => exact .records hashes

/-! ### Agreement -/

/-- An operation that waits for nothing. -/
structure IsIdle (op : Operation) : Prop where
  dependencies : op.dependencies = []
  awaitedEvents : op.awaitedEvents = []
  awaitedResource : op.awaitedResource = none

/-- What an operation waits for, and what it joins, agree with its status and its next step. -/
structure Agrees (op : Operation) : Prop where
  awaitedResource : op.awaitedResource.isSome = true ↔ op.status = .blockedOnResource
  dependencies : op.dependencies ≠ [] →
    op.status = .blockedOnWaitAll ∨ op.status = .blockedOnWaitAny
  awaitedEvents : op.awaitedEvents ≠ [] → op.status = .blockedOnReceive
  joinTargets : op.joinTargets ≠ [] → op.kind = .join

/-- An operation that is not blocked waits for nothing. -/
theorem Agrees.isIdle (h : op.Agrees) (hstatus : op.status.isBlocked = false) : op.IsIdle where
  dependencies := by
    by_contra hne
    rcases h.dependencies hne with hall | hany
    · rw [hall] at hstatus; cases hstatus
    · rw [hany] at hstatus; cases hstatus
  awaitedEvents := by
    by_contra hne
    rw [h.awaitedEvents hne] at hstatus
    cases hstatus
  awaitedResource := by
    by_contra hne
    rw [h.awaitedResource.mp (Option.isSome_iff_ne_none.mpr hne)] at hstatus
    cases hstatus

/-- A new operation waits for nothing. -/
theorem agrees_new (id : OperationId) (name : String) : (new id name).Agrees := by
  constructor <;> simp [new]

/-- Creating an operation, in any status, makes it wait for nothing. -/
theorem Agrees.create (h : op.Agrees) : op.create.Agrees := by
  constructor
  · simp [Operation.create]
  · simp [Operation.create]
  · simp [Operation.create]
  · exact h.joinTargets

/-- Every change keeps the agreement. An operation that starts to wait was idle, so it waits for
one thing only. -/
theorem Agrees.changes (h : op.Agrees) (hchanges : op.Changes next) : next.Agrees := by
  cases hchanges with
  | ignores => exact h
  | waitsTasks ids all hstatus =>
    have hidle := h.isIdle (by simp [hstatus, Status.isBlocked])
    constructor
    · cases all <;> simp [hidle.awaitedResource]
    · cases all <;> simp
    · simp [hidle.awaitedEvents]
    · exact h.joinTargets
  | stopsWaiting hstatus =>
    -- blocked on other operations, it waits for no resource and for no message
    constructor
    · have hnot : op.awaitedResource.isSome ≠ true := fun hsome => by
        simp [h.awaitedResource.mp hsome] at hstatus
      simp [hnot]
    · simp
    · intro hawaits
      simp [h.awaitedEvents hawaits] at hstatus
    · exact h.joinTargets
  | waitsEvents events hstatus =>
    have hidle := h.isIdle (by simp [hstatus, Status.isBlocked])
    constructor
    · simp [hidle.awaitedResource]
    · simp [hidle.dependencies]
    · simp
    · exact h.joinTargets
  | receives sendStep =>
    -- a message may be taken without waiting for it; then only the awaited events change
    by_cases hstatus : op.status = .blockedOnReceive
    · constructor
      · simpa [receive, hstatus] using h.awaitedResource
      · intro hdependencies
        simpa [hstatus] using h.dependencies hdependencies
      · simp [receive]
      · exact h.joinTargets
    · constructor
      · simpa [receive, hstatus] using h.awaitedResource
      · simpa [receive, hstatus] using h.dependencies
      · simp [receive]
      · exact h.joinTargets
  | waitsResource resource hstatus =>
    have hidle := h.isIdle (by simp [hstatus, Status.isBlocked])
    constructor
    · simp
    · simp [hidle.dependencies]
    · simp [hidle.awaitedEvents]
    · exact h.joinTargets
  | getsResource hstatus =>
    constructor
    · simp
    · intro hdependencies
      simpa [hstatus] using h.dependencies hdependencies
    · intro hawaits
      simpa [hstatus] using h.awaitedEvents hawaits
    · exact h.joinTargets
  | completes => constructor <;> simp [complete]
  | announces kind target targetId =>
    exact ⟨h.awaitedResource, h.dependencies, h.awaitedEvents, fun hjoins => absurd rfl hjoins⟩
  | announcesJoin targets =>
    exact ⟨h.awaitedResource, h.dependencies, h.awaitedEvents, fun _ => rfl⟩
  | records hashes => exact ⟨h.awaitedResource, h.dependencies, h.awaitedEvents, h.joinTargets⟩

/-- Every transition keeps the agreement, in whatever status it finds the operation. -/
theorem Agrees.apply (h : op.Agrees) (transition : Transition) : (op.apply transition).Agrees := by
  by_cases hcreate : transition = .create
  · subst hcreate
    exact h.create
  · exact h.changes (changes_apply op hcreate)

/-- Every sequence of transitions keeps the agreement. -/
theorem Agrees.after (h : op.Agrees) (transitions : List Transition) :
    (op.after transitions).Agrees := by
  induction transitions generalizing op with
  | nil => exact h
  | cons transition transitions ih => exact ih (h.apply transition)

/-! ### The life of an operation -/

/-- A change of the status is one of those in the life of an operation. -/
theorem leads_of_changes (hchanges : op.Changes next) (hstatus : next.status ≠ op.status) :
    op.status.Leads next.status := by
  cases hchanges with
  | ignores => exact absurd rfl hstatus
  | waitsTasks ids all henabled =>
    rw [henabled]
    cases all
    · exact .blocks rfl
    · exact .blocks rfl
  | stopsWaiting hwaits =>
    rcases hwaits with hall | hany
    · exact .wakes (by simp [hall, Status.isBlocked])
    · exact .wakes (by simp [hany, Status.isBlocked])
  | waitsEvents events henabled =>
    rw [henabled]
    exact .blocks rfl
  | receives sendStep =>
    by_cases hblocked : op.status = .blockedOnReceive
    · simpa [receive, hblocked] using Status.Leads.wakes (by simp [Status.isBlocked])
    · simp [receive, hblocked] at hstatus
  | waitsResource resource henabled =>
    rw [henabled]
    exact .blocks rfl
  | getsResource hblocked => exact .wakes (by simp [hblocked, Status.isBlocked])
  | completes => exact .completes op.status
  | announces kind target targetId => exact absurd rfl hstatus
  | announcesJoin targets => exact absurd rfl hstatus
  | records hashes => exact absurd rfl hstatus

/-- A completed operation stays completed unless it is created again. -/
theorem completed_after {transitions : List Transition} (h : op.status = .completed)
    (hcreate : Transition.create ∉ transitions) : (op.after transitions).status = .completed := by
  induction transitions generalizing op with
  | nil => exact h
  | cons transition transitions ih =>
    rw [List.mem_cons, not_or] at hcreate
    apply ih _ hcreate.2
    by_contra hchanged
    have hleads := leads_of_changes (changes_apply op (Ne.symm hcreate.1)) (h ▸ hchanged)
    exact hchanged (h ▸ hleads).eq_completed

/-- Whether a wait is over is decided by the operations waited for. -/
theorem waitIsOver_congr {isCompleted isDone : OperationId → Bool}
    (h : ∀ id ∈ op.dependencies, isCompleted id = isDone id) :
    op.waitIsOver isCompleted = op.waitIsOver isDone := by
  unfold waitIsOver
  split
  · rw [Bool.eq_iff_iff, List.all_eq_true, List.all_eq_true]
    exact forall₂_congr fun id hid => by rw [h id hid]
  · rw [Bool.eq_iff_iff, List.any_eq_true, List.any_eq_true]
    exact exists_congr fun id => and_congr_right fun hid => by rw [h id hid]
  · rfl

/-- What an operation waits for agrees with its status, whatever transitions it went through. From
there a transition changes the status only as in the life of an operation, and completion is left
only by creation. A list of completed operations stands for every condition on them. -/
theorem agrees_after (id : OperationId) (name : String) (transitions : List Transition) :
    let op := (new id name).after transitions
    op.Agrees ∧
    (∀ transition, transition ≠ .create → (op.apply transition).status ≠ op.status →
      op.status.Leads (op.apply transition).status) ∧
    (op.status = .completed → ∀ later, Transition.create ∉ later →
      (op.after later).status = .completed ∧ (op.after later).IsIdle) ∧
    ∀ isCompleted, ∃ completed,
      op.enableIfReady isCompleted = op.apply (.enableIfReady completed) := by
  intro op
  have hagrees : op.Agrees := (agrees_new id name).after transitions
  refine ⟨hagrees, ?_, ?_, ?_⟩
  · intro transition hcreate hstatus
    exact leads_of_changes (changes_apply op hcreate) hstatus
  · intro hcompleted later hcreate
    have hlater := completed_after hcompleted hcreate
    exact ⟨hlater, (hagrees.after later).isIdle (by simp [hlater, Status.isBlocked])⟩
  · intro isCompleted
    refine ⟨op.dependencies.filter isCompleted, ?_⟩
    have hover : op.waitIsOver isCompleted =
        op.waitIsOver (op.dependencies.filter isCompleted).contains :=
      waitIsOver_congr fun id hid => by simp [hid]
    rw [apply, enableIfReady, enableIfReady, hover]

end Operation

end ScheduleExplorer
