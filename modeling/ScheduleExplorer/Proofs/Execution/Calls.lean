import ScheduleExplorer.Proofs.Execution.Journal
import ScheduleExplorer.Proofs.Execution.SettledSteps

/-!
# Calls and the primitives that carry them out

A body calls a primitive, is parked at it, and gets the reply in a later turn. `Primitive.Carries`
says which primitives a body may be parked at while it waits in a call: a join that has blocked is
parked at a primitive with nothing left to do, and is only enabled again when it is over.

While an operation is parked, other operations may wake it. `Operation.Wakes` says all that this
can be: an operation that waits for a message, for a resource, or for operations that have
completed is enabled, and nothing else changes what it waits for.
-/

namespace ScheduleExplorer

variable {γ σ μ : Type}

/-- The operations that a call waits for, and whether it waits for all of them. -/
def Request.join? : Request σ → Option (List OperationId × Bool)
  | .join targets => some (targets, true)
  | .joinAny targets => some (targets, false)
  | _ => none

/-- A call that waits for all of some operations is a join. -/
theorem Request.eq_join {request : Request σ} {targets : List OperationId}
    (h : request.join? = some (targets, true)) : request = .join targets := by
  cases request <;> cases h
  rfl

/-- Whether a call touches neither an inbox nor the holder of a resource and waits for nobody. -/
def Request.isLocal : Request σ → Bool
  | .join _ | .joinAny _ | .send .. | .receive _ | .acquire _ | .release _ => false
  | _ => true

/-- A local call waits for nobody. -/
theorem Request.join?_of_isLocal {request : Request σ} (h : request.isLocal = true) :
    request.join? = none := by
  cases request <;> first | rfl | cases h

/-- Whether all, or any one, of some operations have completed. -/
def joinIsOver (isCompleted : OperationId → Bool) (targets : List OperationId) (all : Bool) : Bool :=
  if all then targets.all isCompleted else targets.any isCompleted

/-- A join that is over stays over. -/
theorem joinIsOver_mono {before after : OperationId → Bool}
    (hkept : ∀ id, before id = true → after id = true) {targets : List OperationId} {all : Bool}
    (h : joinIsOver before targets all = true) : joinIsOver after targets all = true := by
  cases all with
  | true =>
    simp only [joinIsOver, if_true, List.all_eq_true] at h ⊢
    exact fun id hid => hkept id (h id hid)
  | false =>
    simp only [joinIsOver, Bool.false_eq_true, if_false, List.any_eq_true] at h ⊢
    obtain ⟨id, hid, hdone⟩ := h
    exact ⟨id, hid, hkept id hdone⟩

/-! ### Waking operations -/

namespace Operation

/-- The operation waits for all, or for any one, of some operations, unless these have completed. -/
def Joins (isCompleted : OperationId → Bool) (targets : List OperationId) (all : Bool)
    (op : Operation) : Prop :=
  joinIsOver isCompleted targets all = true ∨
    (op.status = if all then .blockedOnWaitAll else .blockedOnWaitAny) ∧ op.dependencies = targets

/-- An operation that joins others and is enabled has nothing to wait for. -/
theorem Joins.isOver {isCompleted : OperationId → Bool} {targets : List OperationId} {all : Bool}
    {op : Operation} (h : op.Joins isCompleted targets all) (henabled : op.status = .enabled) :
    joinIsOver isCompleted targets all = true := by
  rcases h with hover | ⟨hblocked, -⟩
  · exact hover
  · rw [henabled] at hblocked
    cases all <;> simp at hblocked

/-- The operation waits as before, or it is enabled although it waited for a message, for a resource
or for operations that have completed. -/
def Wakes (isCompleted : OperationId → Bool) (op after : Operation) : Prop :=
  (after.status = op.status ∧ after.dependencies = op.dependencies) ∨
    after.status = .enabled ∧ (op.status = .blockedOnReceive ∨ op.status = .blockedOnResource ∨
      op.waitIsOver isCompleted = true)

variable {isCompleted : OperationId → Bool} {op after : Operation}

/-- An operation may go on waiting. -/
theorem Wakes.refl (isCompleted : OperationId → Bool) (op : Operation) : op.Wakes isCompleted op :=
  .inl ⟨rfl, rfl⟩

/-- Examining a wait for other operations. -/
theorem wakes_enableIfReady (isCompleted : OperationId → Bool) (op : Operation) :
    op.Wakes isCompleted (op.enableIfReady isCompleted) := by
  rw [enableIfReady]
  split
  · next hover => exact .inr ⟨rfl, .inr (.inr hover)⟩
  · exact .refl _ _

/-- A message that arrives or is taken. -/
theorem wakes_receive (isCompleted : OperationId → Bool) (sendStep : Nat) (op : Operation) :
    op.Wakes isCompleted (op.receive sendStep) := by
  by_cases hwaits : op.status = .blockedOnReceive
  · exact .inr ⟨if_pos hwaits, .inl hwaits⟩
  · exact .inl ⟨if_neg hwaits, rfl⟩

/-- A resource that is released. -/
theorem wakes_wakeOnRelease (isCompleted : OperationId → Bool) (resource : ResourceId)
    (op : Operation) : op.Wakes isCompleted (op.wakeOnRelease resource) := by
  rw [wakeOnRelease]
  split
  · next hawaits => exact .inr ⟨rfl, .inr (.inl (status_of_awaitsResource hawaits))⟩
  · exact .refl _ _

/-- What is woken was blocked. -/
theorem Wakes.cases (h : op.Wakes isCompleted after) :
    after.status = op.status ∨ after.status = .enabled ∧ op.status.isBlocked = true := by
  rcases h with ⟨hsame, -⟩ | ⟨henabled, hreceive | hresource | hover⟩
  · exact .inl hsame
  · exact .inr ⟨henabled, by rw [hreceive]; rfl⟩
  · exact .inr ⟨henabled, by rw [hresource]; rfl⟩
  · exact .inr ⟨henabled, isBlocked_of_waitIsOver hover⟩

/-- Waking an operation neither completes it nor undoes its end. -/
theorem Wakes.isCompleted_eq (h : op.Wakes isCompleted after) :
    after.status.isCompleted = op.status.isCompleted := by
  rcases h.cases with hsame | ⟨henabled, hblocked⟩
  · rw [hsame]
  · rw [henabled, Status.isCompleted_of_isBlocked hblocked]
    rfl

/-- An enabled operation stays enabled. -/
theorem Wakes.enabled (h : op.Wakes isCompleted after) (henabled : op.status = .enabled) :
    after.status = .enabled := by
  rcases h.cases with hsame | ⟨hwoken, -⟩
  · rw [hsame, henabled]
  · exact hwoken

/-- An operation that joins others is woken only when these have completed. -/
theorem Wakes.joins (h : op.Wakes isCompleted after) {targets : List OperationId} {all : Bool}
    (hjoins : op.Joins isCompleted targets all) : after.Joins isCompleted targets all := by
  rcases hjoins with hover | ⟨hblocked, hdependencies⟩
  · exact .inl hover
  · rcases h with ⟨hstatus, hsame⟩ | ⟨-, hreceive | hresource | hover⟩
    · exact .inr ⟨hstatus.trans hblocked, hsame.trans hdependencies⟩
    · rw [hreceive] at hblocked
      cases all <;> simp at hblocked
    · rw [hresource] at hblocked
      cases all <;> simp at hblocked
    · left
      rw [waitIsOver, hblocked, hdependencies] at hover
      cases all <;> exact hover

end Operation

/-- A body that waits in a call may be parked at a primitive, given its operation. -/
inductive Primitive.Carries (isCompleted : OperationId → Bool) (op : Operation) :
    Primitive σ → Option (Request σ) → Prop where
  | start : Carries isCompleted op .start none
  | yield : Carries isCompleted op .resume (some .yield)
  | blocked {request : Request σ} {targets : List OperationId} {all : Bool}
      (hjoin : request.join? = some (targets, all)) (hwaits : op.Joins isCompleted targets all) :
      Carries isCompleted op .resume (some request)
  | spawn (name : String) (child : OperationId) (body : σ) :
      Carries isCompleted op (.spawn child body) (some (.spawn name body))
  | join {request : Request σ} {targets : List OperationId} {all : Bool}
      (hjoin : request.join? = some (targets, all)) :
      Carries isCompleted op (.join targets all) (some request)
  | send (target : OperationId) (message : Message) :
      Carries isCompleted op (.send target message) (some (.send target message))
  | receive (events : List EventType) :
      Carries isCompleted op (.receive events) (some (.receive events))
  | acquire (resource : ResourceId) :
      Carries isCompleted op (.acquire resource) (some (.acquire resource))
  | release (resource : ResourceId) :
      Carries isCompleted op (.release resource) (some (.release resource))

/-- An operation may be woken, and others may complete, while its body is parked. -/
theorem Primitive.Carries.wakes {before after : OperationId → Bool} {op woken : Operation}
    {primitive : Primitive σ} {call : Option (Request σ)} (h : primitive.Carries before op call)
    (hwakes : op.Wakes before woken) (hkept : ∀ id, before id = true → after id = true) :
    primitive.Carries after woken call := by
  cases h with
  | start => exact .start
  | yield => exact .yield
  | blocked hjoin hwaits =>
    refine .blocked hjoin ?_
    rcases hwakes.joins hwaits with hover | hblocked
    · exact .inl (joinIsOver_mono hkept hover)
    · exact .inr hblocked
  | spawn => exact .spawn ..
  | join hjoin => exact .join hjoin
  | send => exact .send ..
  | receive => exact .receive _
  | acquire => exact .acquire _
  | release => exact .release _

/-- What a primitive refers to is registered, given the numbers of operations and of resources. -/
def Primitive.IsKnown (operations resources : Nat) : Primitive σ → Prop
  | .send target _ => target.index < operations
  | .acquire resource => resource.index < resources
  | _ => True

/-- What is registered stays so. -/
theorem Primitive.IsKnown.mono {operations moreOperations resources moreResources : Nat}
    {primitive : Primitive σ} (h : primitive.IsKnown operations resources)
    (hoperations : operations ≤ moreOperations) (hresources : resources ≤ moreResources) :
    primitive.IsKnown moreOperations moreResources := by
  cases primitive with
  | send => exact Nat.lt_of_lt_of_le h hoperations
  | acquire => exact Nat.lt_of_lt_of_le h hresources
  | _ => trivial

namespace Execution

/-- Two executions differ by operations that are woken. The bodies stand where they stood. -/
structure Wakes (ex after : Execution γ σ μ) : Prop where
  stages : after.stages = ex.stages
  length : after.iteration.operations.length = ex.iteration.operations.length
  operations : ∀ id, Option.Rel (Operation.Wakes ex.iteration.isCompleted)
    (ex.iteration.operation? id) (after.iteration.operation? id)
  resources : ex.holders.length ≤ after.holders.length

namespace Wakes

variable {ex between after : Execution γ σ μ}

/-- The operation with a number after some were woken. -/
theorem exists_of_operation? (h : ex.Wakes after) {id : OperationId} {op : Operation}
    (hop : after.iteration.operation? id = some op) :
    ∃ old, ex.iteration.operation? id = some old ∧ old.Wakes ex.iteration.isCompleted op := by
  have hrel := h.operations id
  rw [hop] at hrel
  generalize hold : ex.iteration.operation? id = old at hrel
  cases hrel with
  | some hwakes => exact ⟨_, rfl, hwakes⟩

/-- An operation after some were woken. -/
theorem exists_after (h : ex.Wakes after) {id : OperationId} {op : Operation}
    (hop : ex.iteration.operation? id = some op) :
    ∃ woken, after.iteration.operation? id = some woken ∧ op.Wakes ex.iteration.isCompleted woken := by
  have hrel := h.operations id
  rw [hop] at hrel
  generalize hwoken : after.iteration.operation? id = woken at hrel
  cases hrel with
  | some hwakes => exact ⟨_, rfl, hwakes⟩

/-- Waking operations completes none. -/
theorem isCompleted_eq (h : ex.Wakes after) :
    after.iteration.isCompleted = ex.iteration.isCompleted := by
  funext id
  have hrel := h.operations id
  rw [Iteration.isCompleted, Iteration.isCompleted]
  generalize ex.iteration.operation? id = old at hrel ⊢
  generalize after.iteration.operation? id = woken at hrel ⊢
  cases hrel with
  | some hwakes => exact hwakes.isCompleted_eq
  | none => rfl

/-- Every operation of the table may be changed by waking it. -/
theorem of_map (change : OperationId → Operation → Operation)
    (hstages : after.stages = ex.stages)
    (hlength : after.iteration.operations.length = ex.iteration.operations.length)
    (hoperations : ∀ id, after.iteration.operation? id =
      (ex.iteration.operation? id).map (change id))
    (hchange : ∀ id op, ex.iteration.operation? id = some op →
      op.Wakes ex.iteration.isCompleted (change id op))
    (hresources : ex.holders.length ≤ after.holders.length) : ex.Wakes after where
  stages := hstages
  length := hlength
  operations id := by
    rw [hoperations]
    have hid := hchange id
    generalize ex.iteration.operation? id = old at hid ⊢
    cases old with
    | none => exact .none
    | some op => exact .some (hid op rfl)
  resources := hresources

/-- Nothing is changed that concerns the operations. -/
theorem of_same (hstages : after.stages = ex.stages)
    (hoperations : after.iteration.operations = ex.iteration.operations)
    (hresources : ex.holders.length ≤ after.holders.length) : ex.Wakes after := by
  refine .of_map (fun _ op => op) hstages (by rw [hoperations]) (fun id => ?_)
    (fun id op _ => .refl _ op) hresources
  rw [Iteration.operation?, Iteration.operation?, hoperations, Option.map_id']

/-- One operation is woken, and what does not concern the operations is changed. -/
theorem updateOperation (hstages : after.stages = ex.stages)
    (hiteration : after.iteration = ex.iteration)
    (hresources : ex.holders.length ≤ after.holders.length)
    (id : OperationId) {change : Operation → Operation}
    (hchange : ∀ op : Operation, op.Wakes ex.iteration.isCompleted (change op)) :
    ex.Wakes (after.updateOperation id change) := by
  have hoperations : (after.updateOperation id change).iteration.operations =
      ex.iteration.operations.modify id.index change := by
    rw [← hiteration]
    rfl
  refine .of_map (fun other op => if id.index = other.index then change op else op) hstages
    (by rw [hoperations, List.length_modify]) (fun other => ?_) (fun other op _ => ?_) hresources
  · rw [Iteration.operation?, hoperations]
    exact List.getElem?_modify ..
  · split
    · exact hchange op
    · exact .refl _ op

end Wakes

end Execution

end ScheduleExplorer
