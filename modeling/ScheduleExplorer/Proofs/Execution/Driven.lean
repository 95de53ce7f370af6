import ScheduleExplorer.Proofs.Execution.Driver

/-!
# Programs drive iterations by calls

A step of a program changes the iteration only through calls, so what is true of an iteration after
any calls is true of the iteration of every run. A program makes only some of the calls: it stops no
iteration, and the only bugs that it reports are assertions and panics. It may also give the
iteration up, which is then the last that happens.
-/

namespace ScheduleExplorer

variable {γ σ μ : Type} [RandomSource γ]

/-- The calls that a program makes. -/
def Call.IsOfProgram : Call → Prop
  | .stop _ => False
  | .reportBug kind _ => kind = .assertion ∨ kind = .panic
  | _ => True

namespace Iteration

/-- An iteration has come about by calls of a program. -/
def Arises (start it : Iteration γ) : Prop :=
  ∃ calls : List Call, (∀ call ∈ calls, call.IsOfProgram) ∧ it = start.after calls

/-- An iteration has come about by calls of a program, which may then have given it up. -/
def IsDriven (start it : Iteration γ) : Prop :=
  start.Arises it ∨ ∃ before fault, start.Arises before ∧ it = before.abort fault

/-- Calls one after another. -/
theorem after_append (it : Iteration γ) (first later : List Call) :
    it.after (first ++ later) = (it.after first).after later :=
  List.foldl_append

/-- Without a call nothing comes about. -/
theorem Arises.refl (it : Iteration γ) : it.Arises it :=
  ⟨[], List.forall_mem_nil _, rfl⟩

/-- What comes about by calls, and then by further calls. -/
theorem Arises.trans {start between it : Iteration γ} (h : start.Arises between)
    (h' : between.Arises it) : start.Arises it := by
  obtain ⟨first, hfirst, rfl⟩ := h
  obtain ⟨later, hlater, rfl⟩ := h'
  exact ⟨first ++ later, List.forall_mem_append.mpr ⟨hfirst, hlater⟩, (start.after_append _ _).symm⟩

/-- What comes about by one call. -/
theorem arises_perform (it : Iteration γ) (call : Call) (h : call.IsOfProgram) :
    it.Arises (it.perform call).2 :=
  ⟨[call], List.forall_mem_singleton.mpr h, rfl⟩

/-- No call takes an operation away. -/
theorem length_operations_perform (it : Iteration γ) (call : Call) :
    it.operations.length ≤ (it.perform call).2.operations.length := by
  have hsame {after : Iteration γ} (h : after.operations = it.operations) :
      it.operations.length ≤ after.operations.length := Nat.le_of_eq (by rw [h])
  cases call with
  | register name =>
    rw [perform, register, List.length_append]
    exact Nat.le_add_right _ _
  | change id transition => exact Nat.le_of_eq (List.length_modify _ _ _).symm
  | recordState hashes => exact Nat.le_of_eq (List.length_modify _ _ _).symm
  | schedule =>
    rcases it.operations_scheduleNext with hkept | hwaiting
    · exact hsame hkept
    · refine Nat.le_of_eq ?_
      change it.operations.length = it.scheduleNext.2.operations.length
      rw [hwaiting, enableWaiting, List.length_map]
  | boolean => exact hsame (it.operations_choose _)
  | integer bound => exact hsame (it.operations_choose _)
  | reportBug kind message => exact hsame (sameTable_reportBug kind message it).operations
  | stop outcome => exact hsame (sameTable_stop outcome it).operations
  | setMonitor id isHot => exact hsame rfl

/-- What comes about by calls has lost no operation. -/
theorem Arises.length_operations {it after : Iteration γ} (h : it.Arises after) :
    it.operations.length ≤ after.operations.length := by
  obtain ⟨calls, -, rfl⟩ := h
  induction calls generalizing it with
  | nil => exact Nat.le_refl _
  | cons call rest ih => exact (it.length_operations_perform call).trans ih

/-! ### Changes of operations -/

/-- Changing an operation by a transition is a call. -/
theorem arises_update (it : Iteration γ) (id : OperationId) (transition : Transition) :
    it.Arises (it.update id (·.apply transition)) :=
  it.arises_perform (.change id transition) trivial

omit [RandomSource γ] in
/-- Two changes are the same if they agree on the operation that is changed. -/
theorem update_congr {it : Iteration γ} {id : OperationId} {f g : Operation → Operation}
    (h : ∀ op, it.operation? id = some op → f op = g op) : it.update id f = it.update id g := by
  have hsame : it.operations.modify id.index f = it.operations.modify id.index g := by
    apply List.ext_getElem?
    intro index
    simp only [List.getElem?_modify]
    by_cases hindex : id.index = index
    · subst hindex
      cases hop : it.operations[id.index]? with
      | none => rfl
      | some op => simp [h op hop]
    · simp [hindex]
  rw [update, update, hsame]

omit [RandomSource γ] in
/-- Changing nothing leaves the iteration as it is. -/
theorem update_self (it : Iteration γ) (id : OperationId) : it.update id (fun op => op) = it := by
  have hsame : it.operations.modify id.index (fun op => op) = it.operations := List.modify_id _ _
  rw [update, hsame]

/-- Changing an operation by a transition under a condition is a call or none. -/
theorem arises_update_if (it : Iteration γ) (id : OperationId) (p : Operation → Bool)
    (transition : Transition) :
    it.Arises (it.update id fun op => if p op then op.apply transition else op) := by
  cases hop : (it.operation? id).any p with
  | true =>
    have hchange : it.update id (fun op => if p op then op.apply transition else op) =
        it.update id (·.apply transition) := by
      refine update_congr fun op hsome => ?_
      rw [hsome] at hop
      exact if_pos hop
    rw [hchange]
    exact it.arises_update id transition
  | false =>
    have hnothing : it.update id (fun op => if p op then op.apply transition else op) =
        it.update id (fun op => op) := by
      refine update_congr fun op hsome => ?_
      rw [hsome] at hop
      exact if_neg (Bool.eq_false_iff.mp hop)
    rw [hnothing, update_self]
    exact .refl it

/-- Changing all operations by a transition is a call for each. -/
theorem arises_map (it : Iteration γ) (transition : Transition) :
    it.Arises { it with operations := it.operations.map (·.apply transition) } := by
  have hfirst (count : Nat) : it.Arises { it with
      operations := it.operations.mapIdx fun index op =>
        if index < count then op.apply transition else op } := by
    induction count with
    | zero =>
      simp only [Nat.not_lt_zero, if_false, List.mapIdx_eq_zipIdx_map, List.zipIdx_map_fst]
      exact .refl it
    | succ count ih =>
      refine ih.trans ?_
      have hnext := arises_update { it with
        operations := it.operations.mapIdx fun index op =>
          if index < count then op.apply transition else op } ⟨count⟩ transition
      convert hnext using 1
      simp only [update, Iteration.mk.injEq, true_and, and_true]
      apply List.ext_getElem?
      intro index
      simp only [List.getElem?_mapIdx, List.getElem?_modify]
      cases it.operations[index]? with
      | none => rfl
      | some op =>
        by_cases hindex : count = index
        · simp [hindex]
        · have hlt : index < count + 1 ↔ index < count := by omega
          simp [hindex, hlt]
  have hall : it.operations.map (·.apply transition) = it.operations.mapIdx fun index op =>
      if index < it.operations.length then op.apply transition else op := by
    apply List.ext_getElem
    · simp
    · intro index hindex _
      rw [List.length_map] at hindex
      simp [hindex]
  rw [hall]
  exact hfirst _

end Iteration

/-! ### Turns -/

/-- A turn leads on by calls; a bug is an assertion or a panic, and a choice is one between truth
values or integers. -/
def Turn.IsMadeBy (ex : Execution γ σ μ) : Turn γ σ μ → Prop
  | .bug kind _ after => ex.iteration.Arises after.iteration ∧ (kind = .assertion ∨ kind = .panic)
  | .choice _ _ query _ after =>
    ex.iteration.Arises after.iteration ∧ (query = .boolean 2 ∨ ∃ bound, query = .integer bound)
  | turn => ex.iteration.Arises turn.execution.iteration

namespace Execution

open Iteration

/-- Parking an operation changes it by a transition and records the state. -/
theorem arises_park (program : Program σ μ) (id : OperationId) (primitive : Primitive σ) (next : σ)
    (transition : Transition) (ex : Execution γ σ μ) :
    ex.iteration.Arises (ex.park program id primitive next (·.apply transition)).iteration := by
  have hchanged := ex.iteration.arises_update id transition
  exact hchanged.trans (arises_perform _ (.recordState (ex.hashes program)) trivial)

/-- Carrying out a primitive leads on by calls. -/
theorem isMadeBy_grantTurn (id : OperationId) (next : σ) (ex : Execution γ σ μ)
    (primitive : Primitive σ) : (ex.grantTurn id next primitive).IsMadeBy ex := by
  cases primitive with
  | start => exact .refl _
  | resume => exact .refl _
  | spawn child body => exact ex.iteration.arises_update child .create
  | join targets all =>
    simp only [grantTurn]
    split
    · exact .refl _
    · exact ex.iteration.arises_update id (.waitTasks targets all)
  | send target message =>
    exact ex.iteration.arises_update_if target (·.awaitsEvent message.event)
      (.receive (ex.iteration.operationSteps - 1))
  | receive events =>
    simp only [grantTurn]
    cases htake : ex.takeMessage? id events with
    | none => exact ex.iteration.arises_update id (.waitEvents events)
    | some taken =>
      obtain ⟨envelope, after⟩ := taken
      obtain ⟨inbox, rest, -, -, rfl⟩ := exists_of_takeMessage? htake
      exact ex.iteration.arises_update id (.receive envelope.sendStep)
  | acquire resource =>
    simp only [grantTurn]
    cases ex.holder? resource with
    | none => exact .refl _
    | some holder =>
      dsimp only
      split
      · exact ⟨.refl _, .inl rfl⟩
      · exact ex.iteration.arises_update id (.waitResource resource)
  | release resource =>
    simp only [grantTurn]
    split
    · exact ex.iteration.arises_map (.wakeOnRelease resource)
    · exact ⟨.refl _, .inl rfl⟩

/-- A call of a primitive leads on by calls of the iteration. -/
theorem isMadeBy_callTurn (program : Program σ μ) (id : OperationId) (next : σ)
    (ex : Execution γ σ μ) (request : Request σ) :
    (ex.callTurn program id next request).IsMadeBy ex := by
  have hjoin (targets : List OperationId) (all : Bool) :
      (ex.joinTurn program id next targets all).IsMadeBy ex := by
    rw [joinTurn]
    split
    · exact .refl _
    · exact ex.arises_park program id _ next (.announceJoin targets)
  have hresource (resource : ResourceId) (kind : StepKind) (primitive : Primitive σ) :
      (ex.resourceTurn program id next resource kind primitive).IsMadeBy ex := by
    rw [resourceTurn]
    split
    · exact ex.arises_park program id _ next (.announce kind .resource resource.index)
    · exact .refl _
  cases request with
  | yield => exact ex.arises_park program id _ next (.announce .yield .task id.index)
  | spawn name body =>
    have hregistered := ex.iteration.arises_perform (.register name) trivial
    have hparked := (ex.enroll name).arises_park program id
      (.spawn ⟨ex.iteration.operations.length⟩ body) next
      (.announce .create .task ex.iteration.operations.length)
    exact hregistered.trans hparked
  | join targets => exact hjoin targets true
  | joinAny targets =>
    simp only [callTurn]
    split
    · exact .refl _
    · exact hjoin targets false
  | send target message =>
    simp only [callTurn]
    split
    · exact ex.arises_park program id _ next (.announce .send .inbox target.index)
    · exact .refl _
  | receive events => exact ex.arises_park program id _ next (.announce .receive .inbox id.index)
  | createResource => exact .refl _
  | acquire resource => exact hresource resource _ _
  | release resource => exact hresource resource _ _
  | boolean => exact ⟨.refl _, .inl rfl⟩
  | integer bound => exact ⟨.refl _, .inr ⟨bound, rfl⟩⟩
  | assert condition message =>
    simp only [callTurn]
    split
    · exact .refl _
    · exact ⟨.refl _, .inl rfl⟩
  | setMonitor monitor isHot =>
    simp only [callTurn]
    split
    · exact ex.iteration.arises_perform (.setMonitor monitor isHot) trivial
    · exact .refl _
  | foreignCall thread owner => exact ⟨.refl _, .inl rfl⟩

/-- A turn leads on by calls. -/
theorem isMadeBy_turn {program : Program σ μ} {ex : Execution γ σ μ} {turn : Turn γ σ μ}
    (hturn : ex.turn? program = some turn) : turn.IsMadeBy ex := by
  obtain ⟨-, ⟨primitive, next, -, -, rfl⟩ | ⟨state, reply, -, rfl⟩⟩ := turn?_cases hturn
  · exact isMadeBy_grantTurn _ _ _ _
  · cases (program.resume ex.iteration.current state reply ex.memory).1 with
    | work => exact .refl _
    | call request next => exact isMadeBy_callTurn program _ next _ request
    | finish => exact ex.iteration.arises_update ex.iteration.current .complete
    | raise message => exact ⟨.refl _, .inr rfl⟩
    | giveUp => exact .refl _

/-! ### Steps and runs -/

/-- An iteration is what a query has made of it, and it is given up if the query has failed. -/
def IsLeftBy {α : Type} (answered : Except Fault α × Iteration γ) (after : Iteration γ) : Prop :=
  after = answered.2 ∨ ∃ fault, after = answered.2.abort fault

/-- Passing the turn on leaves the iteration to its query for a turn. -/
theorem isLeftBy_reschedule (ex : Execution γ σ μ) :
    IsLeftBy ex.iteration.scheduleNext ex.reschedule.iteration := by
  rw [reschedule]
  split <;> next heq =>
    rw [heq]
    first | exact .inl rfl | exact .inr ⟨_, rfl⟩

/-- A choice leaves the iteration to its query for a value. -/
theorem isLeftBy_choose (id : OperationId) (next : σ) (query : Query) (wrap : query.Answer → Reply)
    (ex : Execution γ σ μ) :
    IsLeftBy (ex.iteration.choose query) (ex.choose id next query wrap).iteration := by
  rw [choose]
  split <;> next heq =>
    rw [heq]
    first | exact .inl rfl | exact .inr ⟨_, rfl⟩

/-- What is left by a query that is a call has come about by calls. -/
theorem isDriven_of_isLeftBy {α : Type} {start before after : Iteration γ}
    {answered : Except Fault α × Iteration γ} (hbefore : start.Arises before)
    (hquery : before.Arises answered.2) (hafter : IsLeftBy answered after) :
    start.IsDriven after := by
  rcases hafter with rfl | ⟨fault, rfl⟩
  · exact .inl (hbefore.trans hquery)
  · exact .inr ⟨_, fault, hbefore.trans hquery, rfl⟩

/-- A step of a program leads on by calls. -/
theorem isDriven_step {program : Program σ μ} {ex after : Execution γ σ μ}
    (h : ex.step program = some after) : ex.iteration.IsDriven after.iteration := by
  rw [step_eq_settle, Option.map_eq_some_iff] at h
  obtain ⟨turn, hturn, rfl⟩ := h
  have hmade := isMadeBy_turn hturn
  cases turn with
  | quiet before => exact .inl hmade
  | point before =>
    have hquery := before.iteration.arises_perform .schedule trivial
    exact isDriven_of_isLeftBy hmade hquery before.isLeftBy_reschedule
  | choice id next query wrap before =>
    have hquery : before.iteration.Arises (before.iteration.choose query).2 := by
      rcases hmade.2 with rfl | ⟨bound, rfl⟩
      · exact before.iteration.arises_perform .boolean trivial
      · exact before.iteration.arises_perform (.integer bound) trivial
    exact isDriven_of_isLeftBy hmade.1 hquery (before.isLeftBy_choose id next query wrap)
  | bug kind message before =>
    exact .inl (hmade.1.trans (before.iteration.arises_perform (.reportBug kind message) hmade.2))
  | fault cause before => exact .inr ⟨_, cause, hmade, rfl⟩

/-- The iteration of every run has come about by calls of the program. -/
theorem isDriven_run (program : Program σ μ) {it : Iteration γ} {ex : Execution γ σ μ}
    (h : it.IsDriven ex.iteration) (fuel : Nat) :
    it.IsDriven (ex.run program fuel).iteration := by
  induction fuel generalizing ex with
  | zero => exact h
  | succ fuel ih =>
    cases hstep : ex.step program with
    | none => rwa [run_eq_self hstep]
    | some after =>
      rw [run_succ hstep]
      refine ih ?_
      rcases h with hcalls | ⟨before, fault, -, haborted⟩
      · rcases isDriven_step hstep with hmore | ⟨before, fault, hmore, hafter⟩
        · exact .inl (hcalls.trans hmore)
        · exact .inr ⟨before, fault, hcalls.trans hmore, hafter⟩
      · -- No step is taken after the iteration is given up.
        have hended : ex.iteration.isRunning = false := by
          rw [haborted]
          rfl
        cases (step_eq_none hended).symm.trans hstep

/-- The iteration of every execution of a program has come about by its calls. -/
theorem isDriven_start (program : Program σ μ) (it : Iteration γ) (fuel : Nat) :
    it.IsDriven ((start program it).run program fuel).iteration := by
  refine isDriven_run program (.inl ?_) fuel
  have hregistered := it.arises_perform (.register "main") trivial
  exact hregistered.trans (arises_update _ ⟨it.operations.length⟩ .create)

end Execution

end ScheduleExplorer
