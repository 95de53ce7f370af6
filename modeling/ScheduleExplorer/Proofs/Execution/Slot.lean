import ScheduleExplorer.Execution
import Mathlib.Data.List.Basic

/-!
# The slots of an execution

An execution holds its operations, their bodies and their inboxes in lists that go together. A slot
is what these lists hold for one number. Most changes that a turn makes concern one slot, and
`Execution.Changes` says so: the rest of the execution is as it was.
-/

namespace ScheduleExplorer

variable {γ σ μ : Type}

/-- The entries of a list that got one more. -/
theorem getElem?_snoc {α : Type} (list : List α) (last : α) (index : Nat) :
    (list ++ [last])[index]? = if index = list.length then some last else list[index]? := by
  rcases Nat.lt_trichotomy index list.length with hlt | heq | hgt
  · rw [if_neg (Nat.ne_of_lt hlt), List.getElem?_append_left hlt]
  · rw [if_pos heq, heq, List.getElem?_concat_length]
  · have hbeyond : (list ++ [last]).length ≤ index := by
      rw [List.length_append, List.length_singleton]
      exact hgt
    rw [if_neg (Nat.ne_of_gt hgt), List.getElem?_eq_none hbeyond,
      List.getElem?_eq_none (Nat.le_of_lt hgt)]

/-- An operation with its body and its inbox. -/
structure Slot (σ : Type) where
  operation : Operation
  stage : Stage σ
  inbox : Inbox

namespace Execution

/-- The operation with a number, with its body and its inbox. -/
def slot? (id : OperationId) (ex : Execution γ σ μ) : Option (Slot σ) := do
  let operation ← ex.iteration.operation? id
  let stage ← ex.stage? id
  let inbox ← ex.inboxes[id.index]?
  pure ⟨operation, stage, inbox⟩

/-- The parts of a slot. -/
theorem slot?_eq_some {id : OperationId} {ex : Execution γ σ μ} {slot : Slot σ} :
    ex.slot? id = some slot ↔ ex.iteration.operation? id = some slot.operation ∧
      ex.stage? id = some slot.stage ∧ ex.inboxes[id.index]? = some slot.inbox := by
  obtain ⟨operation, stage, inbox⟩ := slot
  rw [slot?]
  cases ex.iteration.operation? id <;> cases ex.stage? id <;> cases ex.inboxes[id.index]? <;>
    simp

/-- Two executions differ in the slot of one operation, by a change of it. -/
structure Changes (id : OperationId) (f : Slot σ → Slot σ) (ex after : Execution γ σ μ) : Prop
    where
  operations : after.iteration.operations.length = ex.iteration.operations.length
  stages : after.stages.length = ex.stages.length
  inboxes : after.inboxes.length = ex.inboxes.length
  holders : after.holder? = ex.holder?
  here : after.slot? id = (ex.slot? id).map f
  elsewhere : ∀ other, other ≠ id → after.slot? other = ex.slot? other

namespace Changes

variable {id : OperationId} {f g : Slot σ → Slot σ} {ex between after : Execution γ σ μ}

/-- One change after another. -/
theorem trans (hf : Changes id f ex between) (hg : Changes id g between after) :
    Changes id (g ∘ f) ex after where
  operations := hg.operations.trans hf.operations
  stages := hg.stages.trans hf.stages
  inboxes := hg.inboxes.trans hf.inboxes
  holders := hg.holders.trans hf.holders
  here := by rw [hg.here, hf.here, Option.map_map]
  elsewhere other hne := (hg.elsewhere other hne).trans (hf.elsewhere other hne)

/-- Two numbers with one index are one. -/
theorem index_ne {other : OperationId} (hne : other ≠ id) : id.index ≠ other.index := by
  intro hindex
  cases id
  cases other
  exact hne (congrArg OperationId.mk hindex.symm)

/-- Moving the body of an operation on. -/
theorem setStage (id : OperationId) (stage : Stage σ) (ex : Execution γ σ μ) :
    Changes id (fun slot => { slot with stage }) ex (ex.setStage id stage) where
  operations := rfl
  stages := List.length_set
  inboxes := rfl
  holders := rfl
  here := by
    simp only [slot?, stage?, Execution.setStage, List.getElem?_set_self']
    cases ex.iteration.operation? id <;> cases ex.stages[id.index]? <;>
      cases ex.inboxes[id.index]? <;> rfl
  elsewhere other hne := by
    simp only [slot?, stage?, Execution.setStage, List.getElem?_set_ne (index_ne hne)]

/-- Changing an operation of the table. -/
theorem updateOperation (id : OperationId) (change : Operation → Operation)
    (ex : Execution γ σ μ) :
    Changes id (fun slot => { slot with operation := change slot.operation }) ex
      (ex.updateOperation id change) where
  operations := List.length_modify ..
  stages := rfl
  inboxes := rfl
  holders := rfl
  here := by
    simp only [slot?, stage?, Execution.updateOperation, mapIteration, Iteration.operation?,
      Iteration.update, List.getElem?_modify_eq]
    cases ex.iteration.operations[id.index]? <;> cases ex.stages[id.index]? <;>
      cases ex.inboxes[id.index]? <;> rfl
  elsewhere other hne := by
    simp only [slot?, stage?, Execution.updateOperation, mapIteration, Iteration.operation?,
      Iteration.update, List.getElem?_modify_ne _ _ (index_ne hne)]

/-- Changing an inbox. -/
theorem modifyInbox (id : OperationId) (change : Inbox → Inbox) (ex : Execution γ σ μ) :
    Changes id (fun slot => { slot with inbox := change slot.inbox }) ex
      { ex with inboxes := ex.inboxes.modify id.index change } where
  operations := rfl
  stages := rfl
  inboxes := List.length_modify ..
  holders := rfl
  here := by
    simp only [slot?, stage?, List.getElem?_modify_eq]
    cases ex.iteration.operation? id <;> cases ex.stages[id.index]? <;>
      cases ex.inboxes[id.index]? <;> rfl
  elsewhere other hne := by
    simp only [slot?, stage?, List.getElem?_modify_ne _ _ (index_ne hne)]

/-- Changing what no slot shows. -/
theorem of_same (id : OperationId) (hoperations : after.iteration.operations = ex.iteration.operations)
    (hstages : after.stages = ex.stages) (hinboxes : after.inboxes = ex.inboxes)
    (hholders : after.holders = ex.holders) : Changes id (fun slot => slot) ex after := by
  have hslot (other : OperationId) : after.slot? other = ex.slot? other := by
    simp only [slot?, stage?, Iteration.operation?, hoperations, hstages, hinboxes]
  refine ⟨by rw [hoperations], by rw [hstages], by rw [hinboxes], ?_, ?_, fun other _ => hslot other⟩
  · funext resource
    rw [holder?, holder?, hholders]
  · rw [hslot, Option.map_id']

end Changes

end Execution

end ScheduleExplorer
