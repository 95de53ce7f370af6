import ScheduleExplorer.Proofs.Execution.Waiting

/-!
# Steps of settled executions

Every turn of a settled execution leaves it settled, whatever the iteration answers when it is
asked. So at every step of a run the blocked operations wait for what `Fits` says.
-/

namespace ScheduleExplorer

variable {γ σ μ : Type}

/-- What a turn leaves behind fits, and an operation that asks for a value is free. -/
def Turn.Settled : Turn γ σ μ → Prop
  | .choice id _ query _ ex =>
    ex.Settled ∧ ex.IsFree id ∧ query.IsValue
  | turn => turn.execution.Settled

/-- What a turn leaves behind fits. -/
theorem Turn.Settled.execution {turn : Turn γ σ μ} (h : turn.Settled) : turn.execution.Settled := by
  cases turn with
  | choice => exact h.1
  | _ => exact h

namespace Execution

section Turns

variable {id : OperationId} {ex : Execution γ σ μ}

/-- An operation and its place. -/
theorem Settled.exists_slot (h : ex.Settled) {op : Operation}
    (hop : ex.iteration.operation? id = some op) :
    ∃ slot, ex.slot? id = some slot ∧ slot.operation = op := by
  have hbound : id.index < ex.iteration.operations.length := (List.getElem?_eq_some_iff.mp hop).1
  exact ⟨⟨op, _, _⟩, slot?_eq_some.mpr ⟨hop,
    List.getElem?_eq_getElem (h.stages.symm ▸ hbound),
    List.getElem?_eq_getElem (h.inboxes.symm ▸ hbound)⟩, rfl⟩

/-- An operation has a body. -/
theorem Settled.exists_stage? (h : ex.Settled) {op : Operation}
    (hop : ex.iteration.operation? id = some op) : ∃ stage, ex.stage? id = some stage := by
  have hbound := (List.getElem?_eq_some_iff.mp hop).1
  rw [← h.stages] at hbound
  exact ⟨_, List.getElem?_eq_getElem hbound⟩

/-- A body belongs to an operation. -/
theorem Settled.exists_operation? (h : ex.Settled) {stage : Stage σ}
    (hstage : ex.stage? id = some stage) : ∃ op, ex.iteration.operation? id = some op := by
  have hbound := (List.getElem?_eq_some_iff.mp hstage).1
  rw [h.stages] at hbound
  exact ⟨_, List.getElem?_eq_getElem hbound⟩

/-- The operations of a settled execution are numbered by their places. -/
theorem Settled.isNumbered (h : ex.Settled) : ex.iteration.IsNumbered := by
  intro id op hop
  obtain ⟨slot, hslot, rfl⟩ := h.exists_slot hop
  exact h.id_eq hslot

/-- Parking a free operation keeps the invariant, whatever step it announces. -/
theorem Settled.park (h : ex.Settled) (hfree : ex.IsFree id) (hcurrent : ex.iteration.current = id)
    (program : Program σ μ) (primitive : Primitive σ) (next : σ)
    {describe : Operation → Operation} (hid : ∀ op, (describe op).id = op.id)
    (hstatus : ∀ op, (describe op).status = op.status) :
    (ex.park program id primitive next describe).Settled := by
  have hkeep : ∀ op : Operation, op.status = .enabled → (describe op).status = .enabled :=
    fun op henabled => (hstatus op).trans henabled
  have hparked := h.setStage hfree (.parked primitive next)
  have hparkedFree := hfree.setStage id (.parked primitive next)
  have hannounced := hparked.updateFree hparkedFree describe hid hkeep
  have hannouncedFree := hparkedFree.updateOperation id hkeep
  have hrecorded := hannounced.updateFree hannouncedFree
    (Operation.recordState (ex.hashes program)) (fun _ => rfl) (fun _ henabled => henabled)
  refine hrecorded.of_same ?_ rfl rfl rfl
  simp only [Execution.park, Execution.setStage, mapIteration, Iteration.recordState,
    Execution.updateOperation, Iteration.update, hcurrent]

/-- A primitive that is carried out keeps the invariant. -/
theorem Settled.grantTurn (h : ex.Settled) (hfree : ex.IsFree id) {primitive : Primitive σ}
    {next : σ} (hstage : ex.stage? id = some (.parked primitive next)) :
    (ex.grantTurn id next primitive).Settled := by
  cases primitive with
  | start => exact h.reply hfree next _
  | resume => exact h.reply hfree next _
  | spawn child body => exact (h.begin child body).reply (hfree.begin child body) next _
  | join targets all =>
    simp only [Execution.grantTurn]
    split
    · exact h.reply hfree next _
    · exact h.waitTasks hfree targets all next
  | send target message =>
    exact (h.deliver id target message).reply (hfree.deliver id target message) next _
  | receive events =>
    simp only [Execution.grantTurn]
    cases htake : ex.takeMessage? id events with
    | none => exact h.waitEvents hfree hstage htake
    | some taken =>
      obtain ⟨envelope, after⟩ := taken
      obtain ⟨hafter, hafterFree⟩ := h.takeMessage hfree htake
      have hkeep : ∀ op : Operation, op.status = .enabled →
          (Operation.receive envelope.sendStep op).status = .enabled := by
        intro op henabled
        simp [Operation.receive, henabled]
      have hreceived := hafter.updateFree hafterFree (Operation.receive envelope.sendStep)
        (fun _ => rfl) hkeep
      exact hreceived.reply (hafterFree.updateOperation id hkeep) next _
  | acquire resource =>
    simp only [Execution.grantTurn]
    cases hholder : ex.holder? resource with
    | none =>
      refine (h.setHolder hholder id).reply ?_ next _
      exact fun slot hslot => hfree slot hslot
    | some holder =>
      dsimp only
      split
      · exact h
      · next hne => exact h.waitResource hfree hstage hholder hne
  | release resource =>
    simp only [Execution.grantTurn]
    split
    · exact (h.free resource).reply (hfree.free resource) next _
    · exact h

/-- A call keeps the invariant. -/
theorem Settled.callTurn (h : ex.Settled) (hfree : ex.IsFree id)
    (hcurrent : ex.iteration.current = id) (hid : id.index < ex.iteration.operations.length)
    (program : Program σ μ) (next : σ) (request : Request σ) :
    (ex.callTurn program id next request).Settled := by
  have hjoin (targets : List OperationId) (all : Bool) :
      (ex.joinTurn program id next targets all).Settled := by
    rw [joinTurn]
    split
    · exact h
    · exact h.park hfree hcurrent program _ next (fun _ => rfl) (fun _ => rfl)
  have hresource (resource : ResourceId) (kind : StepKind) (primitive : Primitive σ) :
      (ex.resourceTurn program id next resource kind primitive).Settled := by
    rw [resourceTurn]
    split
    · exact h.park hfree hcurrent program _ next (fun _ => rfl) (fun _ => rfl)
    · exact h
  cases request with
  | yield => exact h.park hfree hcurrent program _ next (fun _ => rfl) (fun _ => rfl)
  | spawn name body =>
    exact (h.enroll name).park (hfree.enroll h hid name) hcurrent program _ next (fun _ => rfl)
      (fun _ => rfl)
  | join targets => exact hjoin targets true
  | joinAny targets =>
    simp only [Execution.callTurn]
    split
    · exact h.reply hfree next _
    · exact hjoin targets false
  | send target message =>
    simp only [Execution.callTurn]
    split
    · exact h.park hfree hcurrent program _ next (fun _ => rfl) (fun _ => rfl)
    · exact h
  | receive events => exact h.park hfree hcurrent program _ next (fun _ => rfl) (fun _ => rfl)
  | createResource => exact h.createResource.reply (fun slot hslot => hfree slot hslot) next _
  | acquire resource => exact hresource resource _ _
  | release resource => exact hresource resource _ _
  | boolean => exact ⟨h, hfree, trivial⟩
  | integer max => exact ⟨h, hfree, trivial⟩
  | assert condition message =>
    simp only [Execution.callTurn]
    split
    · exact h.reply hfree next _
    · exact h
  | setMonitor monitor isHot =>
    simp only [Execution.callTurn]
    split
    · have hset : (ex.mapIteration fun it =>
          { it with monitors := it.monitors.set monitor isHot }).Settled :=
        h.of_same rfl rfl rfl rfl
      exact hset.reply (fun slot hslot => hfree slot hslot) next _
    · exact h
  | foreignCall thread owner => exact h

/-- An action keeps the invariant. -/
theorem Settled.actTurn (h : ex.Settled) (hfree : ex.IsFree id)
    (hcurrent : ex.iteration.current = id) (hid : id.index < ex.iteration.operations.length)
    (program : Program σ μ) (action : Action σ) :
    (ex.actTurn program id action).Settled := by
  cases action with
  | work next => exact h.reply hfree next _
  | call request next => exact h.callTurn hfree hcurrent hid program next request
  | finish =>
    refine h.changes ((Changes.setStage id _ ex).trans (.updateOperation id Operation.complete _))
      fun slot hslot => ?_
    have hslotId := h.id_eq hslot
    exact .of_status hslotId (fun _ _ hrunning => by cases hrunning)
      (fun hblocked => by cases hblocked) (fun hblocked => by cases hblocked)
  | raise message => exact h.setStage hfree _
  | giveUp => exact h.setStage hfree _

/-- What a step changes on its own keeps the invariant. -/
theorem Settled.turn (h : ex.Settled) {program : Program σ μ} {turn : Turn γ σ μ}
    (hturn : ex.turn? program = some turn) : turn.Settled := by
  obtain ⟨-, ⟨primitive, next, hstage, henabled, rfl⟩ | ⟨state, reply, hstage, rfl⟩⟩ :=
    turn?_cases hturn
  · refine h.grantTurn (fun slot hslot => ?_) hstage
    rw [Execution.isEnabled, (slot?_eq_some.mp hslot).1, Option.any_some,
      Operation.isEnabled] at henabled
    revert henabled
    cases slot.operation.status <;> simp [Status.isEnabled]
  · have hmoved : Settled { ex with memory := (program.resume ex.iteration.current state reply
        ex.memory).2 } := h.of_same rfl rfl rfl rfl
    refine hmoved.actTurn (fun slot hslot => ?_) rfl ?_ program _
    · have hrunning := (slot?_eq_some.mp hslot).2.1
      exact (h.fits _ slot hslot).running state reply
        (Option.some.inj (hrunning.symm.trans hstage))
    · have hbound := (List.getElem?_eq_some_iff.mp hstage).1
      rwa [h.stages] at hbound

end Turns

/-! ### Steps -/

section Steps

variable {ex : Execution γ σ μ}

/-- An iteration that changed its operations only by enabling some whose wait for others is over
keeps the invariant. -/
theorem Settled.of_iteration (h : ex.Settled) {it : Iteration γ}
    (hoperations : it.operations = ex.iteration.operations ∨
      it.operations = ex.iteration.enableWaiting.operations) :
    { ex with iteration := it }.Settled := by
  rcases hoperations with hsame | henabled
  · exact h.of_same hsame rfl rfl rfl
  · have hlength : it.operations.length = ex.iteration.operations.length := by
      rw [henabled, Iteration.enableWaiting, List.length_map]
    refine ⟨h.stages.trans hlength.symm, h.inboxes.trans hlength.symm, fun id slot hslot => ?_⟩
    obtain ⟨hop, hstage, hinbox⟩ := slot?_eq_some.mp hslot
    have hwaiting : ex.iteration.enableWaiting.operation? id = some slot.operation := by
      rw [← hop, Iteration.operation?, Iteration.operation?, henabled]
    rw [Iteration.operation?_enableWaiting, Option.map_eq_some_iff] at hwaiting
    obtain ⟨old, hold, hready⟩ := hwaiting
    have hfits := h.fits id ⟨old, slot.stage, slot.inbox⟩
      (slot?_eq_some.mpr ⟨hold, hstage, hinbox⟩)
    rcases old.enableIfReady_cases ex.iteration.isCompleted with ⟨hid, hstatus, -⟩ | hsame
    · rw [hready] at hid hstatus
      exact .of_enabled (hid.trans hfits.id_eq) hstatus
    · rw [hready] at hsame
      subst hsame
      exact hfits

/-- An iteration that keeps its operations keeps operations free. -/
theorem IsFree.of_operations {id : OperationId} (hfree : ex.IsFree id) {it : Iteration γ}
    (hoperations : it.operations = ex.iteration.operations) :
    { ex with iteration := it }.IsFree id := by
  intro slot hslot
  refine hfree slot ?_
  rw [slot?_eq_some] at hslot ⊢
  rwa [Iteration.operation?, hoperations] at hslot

variable [RandomSource γ]

/-- Whatever the iteration is asked for, the invariant is kept. -/
theorem Settled.settle {turn : Turn γ σ μ} (h : turn.Settled) :
    turn.settle.Settled := by
  cases turn with
  | quiet ex => exact h
  | point ex =>
    have hkept := ex.iteration.operations_scheduleNext
    rw [Turn.settle, reschedule]
    split
    · next heq =>
      rw [heq] at hkept
      exact h.of_iteration hkept
    · next heq =>
      rw [heq] at hkept
      exact h.of_iteration hkept
  | choice id next query wrap ex =>
    have hkept := ex.iteration.operations_choose query
    rw [Turn.settle, choose]
    split
    · next value it heq =>
      rw [heq] at hkept
      exact (h.1.of_iteration (.inl hkept)).reply (h.2.1.of_operations hkept) next _
    · next heq =>
      rw [heq] at hkept
      exact h.1.of_iteration (.inl hkept)
    · next heq =>
      rw [heq] at hkept
      exact h.1.of_iteration (.inl hkept)
  | bug kind message ex =>
    exact h.of_iteration (.inl (Iteration.sameTable_reportBug kind message ex.iteration).operations)
  | fault cause ex => exact h.of_iteration (.inl rfl)

/-- A step keeps the invariant. -/
theorem Settled.step (h : ex.Settled) {program : Program σ μ} {after : Execution γ σ μ}
    (hstep : ex.step program = some after) : after.Settled := by
  rw [step_eq_settle, Option.map_eq_some_iff] at hstep
  obtain ⟨turn, hturn, rfl⟩ := hstep
  exact Settled.settle (h.turn hturn)

/-- Steps keep the invariant. -/
theorem Settled.run (h : ex.Settled) (program : Program σ μ) (fuel : Nat) :
    (ex.run program fuel).Settled := by
  induction fuel generalizing ex with
  | zero => exact h
  | succ fuel ih =>
    rw [Execution.run]
    split
    · next after hstep => exact ih (h.step hstep)
    · exact h

end Steps

end Execution

end ScheduleExplorer
