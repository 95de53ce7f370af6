import ScheduleExplorer.Proofs.Execution.Deadlock
import ScheduleExplorer.Proofs.Execution.Effects

/-!
# Where the bodies stand

While an iteration runs, every body stands where its operation and the call in which it waits say:
one whose spawn is still parked has no status yet, one that waits in a call is parked at a primitive
that carries the call out, and only the body whose turn it is runs. `Execution.Orderly` states this
of all bodies. Every step keeps it, whatever the strategy answers.
-/

namespace ScheduleExplorer

variable {γ σ μ : Type}

/-! ### Turns and values that are given out -/

namespace Iteration

variable [RandomSource γ]

variable {it after : Iteration γ}

/-- An iteration that runs after a scheduling point has given the turn to an enabled operation that
the strategy chose. -/
theorem Scheduled.exists_consulted {next : Option OperationId}
    (h : Scheduled it (.ok next, after)) (hrunning : after.isRunning = true) :
    ∃ (selected : OperationId) (op : Operation) (between : Iteration γ),
      Consulted (.operation it.enableWaiting.operations) it.enableWaiting
        (.ok (some (some selected)), between) ∧
      between.operation? selected = some op ∧ op.isEnabled = true ∧
      after = between.schedule selected := by
  cases h with
  | ended h => cases h.symm.trans hrunning
  | completed => cases (isRunning_stop _ _).symm.trans hrunning
  | atBound => cases (isRunning_endAtBound _).symm.trans hrunning
  | consulted _ hanswer hresult =>
    cases hresult with
    | violated =>
      cases hanswer with
      | violated => cases (isRunning_reportBug _ _ _).symm.trans hrunning
    | unanswered => cases (isRunning_endWithoutChoice _).symm.trans hrunning
    | scheduled hop henabled => exact ⟨_, _, _, hanswer, hop, henabled, rfl⟩

/-- An iteration that runs after it was asked for a value has recorded the one that the strategy
gave. -/
theorem Chosen.exists_consulted {query : Query} {value : Option query.Answer}
    (h : Chosen query it (.ok value, after)) (hrunning : after.isRunning = true) :
    ∃ (given : query.Answer) (between : Iteration γ), value = some given ∧
      Consulted query it (.ok (some (some given)), between) ∧
      after = { between with trace := between.trace.push (query.decision given) } := by
  cases h with
  | ended h => cases h.symm.trans hrunning
  | atBound => cases (isRunning_endAtBound _).symm.trans hrunning
  | violated _ _ hanswer =>
    cases hanswer with
    | violated => cases (isRunning_reportBug _ _ _).symm.trans hrunning
  | given _ _ hanswer => exact ⟨_, _, rfl, hanswer, rfl⟩

/-- An iteration that runs after a scheduling point has examined the waiting operations and given
the turn to one that is enabled. -/
theorem Scheduled.of_isRunning {next : Option OperationId} (h : Scheduled it (.ok next, after))
    (hrunning : after.isRunning = true) :
    after.operations = it.enableWaiting.operations ∧
      ∃ op, after.operation? after.current = some op ∧ op.isEnabled = true := by
  obtain ⟨selected, op, between, hanswer, hop, henabled, rfl⟩ := h.exists_consulted hrunning
  exact ⟨hanswer.operations, op, hop, henabled⟩

/-- An iteration that runs after it was asked for a value has given one out. -/
theorem Chosen.of_isRunning {query : Query} {value : Option query.Answer}
    (h : Chosen query it (.ok value, after)) (hrunning : after.isRunning = true) :
    ∃ given, value = some given ∧ after.operations = it.operations ∧
      after.current = it.current := by
  obtain ⟨given, between, rfl, hanswer, rfl⟩ := h.exists_consulted hrunning
  cases hanswer with
  | answered => exact ⟨given, rfl, rfl, rfl⟩

end Iteration

/-- What is known of a body, given its operation, whether it has the turn, and the call in which it
waits. -/
inductive Stage.Accords (isCompleted : OperationId → Bool) (hasTurn : Prop) (op : Operation) :
    Stage σ → Option (Request σ) → Prop where
  | announced (hstatus : op.status = .none) : Accords isCompleted hasTurn op .announced none
  | parked {primitive : Primitive σ} {next : σ} {call : Option (Request σ)}
      (hcarries : primitive.Carries isCompleted op call) :
      Accords isCompleted hasTurn op (.parked primitive next) call
  | running {state : σ} {reply : Reply} (hturn : hasTurn) :
      Accords isCompleted hasTurn op (.running state reply) none
  | ended (hdone : op.status = .completed ∨ hasTurn) : Accords isCompleted hasTurn op .ended none

/-- A body stands where it stood when its operation is woken, when others complete, and when it gets
the turn. -/
theorem Stage.Accords.wakes {before after : OperationId → Bool} {hadTurn hasTurn : Prop}
    {op woken : Operation} {stage : Stage σ} {call : Option (Request σ)}
    (h : stage.Accords before hadTurn op call) (hwakes : op.Wakes before woken)
    (hkept : ∀ id, before id = true → after id = true) (hturn : hadTurn → hasTurn) :
    stage.Accords after hasTurn woken call := by
  cases h with
  | announced hstatus =>
    rcases hwakes.cases with hsame | ⟨-, hblocked⟩
    · exact .announced (hsame.trans hstatus)
    · rw [hstatus] at hblocked
      cases hblocked
  | parked hcarries => exact .parked (hcarries.wakes hwakes hkept)
  | running h => exact .running (hturn h)
  | ended hdone =>
    refine .ended (hdone.imp (fun hstatus => ?_) hturn)
    rw [← Status.isCompleted_iff, hwakes.isCompleted_eq, hstatus]
    rfl

namespace Execution

/-- The operation is parked at a spawn of the given one. -/
def Spawns (child : OperationId) (ex : Execution γ σ μ) (id : OperationId) : Prop :=
  ∃ body next, ex.stage? id = some (.parked (.spawn child body) next)

/-- Every body stands where its operation, the turn and the call in which it waits say, and what it
refers to is registered. -/
structure Orderly (pending : OperationId → Option (Request σ)) (hasTurn : OperationId → Prop)
    (ex : Execution γ σ μ) : Prop where
  accords : ∀ id op stage, ex.iteration.operation? id = some op → ex.stage? id = some stage →
    stage.Accords ex.iteration.isCompleted (hasTurn id) op (pending id)
  unknown : ∀ id, ex.stage? id = none → pending id = none
  known : ∀ id primitive next, ex.stage? id = some (.parked primitive next) →
    primitive.IsKnown ex.iteration.operations.length ex.holders.length
  announced : ∀ id child, ex.Spawns child id → ex.stage? child = some .announced
  unique : ∀ id other child, ex.Spawns child id → ex.Spawns child other → other = id

/-- Where one body stands is changed, and its operation. -/
structure Moves (id : OperationId) (change : Operation → Operation) (stage : Stage σ)
    (ex after : Execution γ σ μ) : Prop where
  operations : after.iteration.operations = ex.iteration.operations.modify id.index change
  stages : after.stages = ex.stages.set id.index stage
  resources : after.holders.length = ex.holders.length

namespace Moves

variable {id : OperationId} {change : Operation → Operation} {stage : Stage σ}
  {ex after : Execution γ σ μ}

/-- A spawned body may begin. -/
theorem begin (child : OperationId) (body : σ) (ex : Execution γ σ μ) :
    ex.Moves child Operation.create (.parked .start body) (ex.begin child body) :=
  ⟨rfl, rfl, rfl⟩

/-- Only the body moves. -/
theorem setStage (id : OperationId) (stage : Stage σ) (ex : Execution γ σ μ) :
    ex.Moves id (fun op => op) stage (ex.setStage id stage) :=
  ⟨(List.modify_id _ _).symm, rfl, rfl⟩

/-- Only the operation changes. -/
theorem updateOperation (change : Operation → Operation) (hstage : ex.stage? id = some stage) :
    ex.Moves id change stage (ex.updateOperation id change) where
  operations := rfl
  stages := by
    obtain ⟨hbound, hstage⟩ := List.getElem?_eq_some_iff.mp hstage
    rw [← hstage, List.set_getElem_self]
    rfl
  resources := rfl

/-- The operation whose turn it is is parked. -/
theorem park (program : Program σ μ) (primitive : Primitive σ) (next : σ)
    (describe : Operation → Operation) (hcurrent : ex.iteration.current = id) :
    ex.Moves id (Operation.recordState (ex.hashes program) ∘ describe) (.parked primitive next)
      (ex.park program id primitive next describe) where
  operations := by
    simp only [Execution.park, mapIteration, Iteration.recordState, Iteration.update,
      Execution.setStage, hcurrent, List.modify_modify_eq]
  stages := rfl
  resources := rfl

/-- The stage of the body that moves. -/
theorem stage?_self (h : ex.Moves id change stage after) {old : Stage σ}
    (hold : ex.stage? id = some old) : after.stage? id = some stage := by
  rw [stage?, h.stages, List.getElem?_set_self (List.getElem?_eq_some_iff.mp hold).1]

/-- The other bodies stand where they stood. -/
theorem stage?_of_ne (h : ex.Moves id change stage after) {other : OperationId} (hne : other ≠ id) :
    after.stage? other = ex.stage? other := by
  rw [stage?, h.stages, List.getElem?_set_ne (Changes.index_ne hne), stage?]

/-- No body is lost. -/
theorem exists_stage? (h : ex.Moves id change stage after) {other : OperationId} {old : Stage σ}
    (hold : ex.stage? other = some old) : ∃ left, after.stage? other = some left := by
  by_cases hother : other = id
  · subst hother
    exact ⟨stage, h.stage?_self hold⟩
  · exact ⟨old, (h.stage?_of_ne hother).trans hold⟩

/-- The operation of the body that moves. -/
theorem operation?_self (h : ex.Moves id change stage after) :
    after.iteration.operation? id = (ex.iteration.operation? id).map change := by
  rw [Iteration.operation?, h.operations, List.getElem?_modify_eq, Iteration.operation?]
  rfl

/-- The other operations are as they were. -/
theorem operation?_of_ne (h : ex.Moves id change stage after) {other : OperationId}
    (hne : other ≠ id) : after.iteration.operation? other = ex.iteration.operation? other := by
  rw [Iteration.operation?, h.operations, List.getElem?_modify_ne _ _ (Changes.index_ne hne),
    Iteration.operation?]

/-- Who has completed stays completed. -/
theorem isCompleted (h : ex.Moves id change stage after)
    (hkept : ∀ op, ex.iteration.operation? id = some op → op.status ≠ .completed)
    {other : OperationId} (hother : ex.iteration.isCompleted other = true) :
    after.iteration.isCompleted other = true := by
  by_cases hne : other = id
  · subst hne
    rw [Iteration.isCompleted, Option.any_eq_true] at hother
    obtain ⟨op, hop, hdone⟩ := hother
    exact absurd (Status.isCompleted_iff.mp hdone) (hkept op hop)
  · rw [Iteration.isCompleted, h.operation?_of_ne hne]
    exact hother

/-- A spawn that is parked afterwards is the one to which the body has moved, or an old one. -/
theorem spawns (h : ex.Moves id change stage after) (hold : ∃ old, ex.stage? id = some old)
    {child other : OperationId} (hafter : after.Spawns child other) :
    (other = id ∧ ∃ body next, stage = .parked (.spawn child body) next) ∨
      other ≠ id ∧ ex.Spawns child other := by
  obtain ⟨body, next, hbody⟩ := hafter
  obtain ⟨old, hold⟩ := hold
  by_cases hother : other = id
  · subst hother
    rw [h.stage?_self hold, Option.some.injEq] at hbody
    exact .inl ⟨rfl, body, next, hbody⟩
  · rw [h.stage?_of_ne hother] at hbody
    exact .inr ⟨hother, body, next, hbody⟩

end Moves

variable {pending : OperationId → Option (Request σ)} {hadTurn hasTurn : OperationId → Prop}
  {ex after : Execution γ σ μ}

/-- Waking operations keeps the order. -/
theorem Orderly.wakes (h : ex.Orderly pending hadTurn) (hwakes : ex.Wakes after)
    (hturn : ∀ id, hadTurn id → hasTurn id) : after.Orderly pending hasTurn := by
  have hstage (id : OperationId) : after.stage? id = ex.stage? id := by
    rw [stage?, stage?, hwakes.stages]
  have hspawns {child id : OperationId} (hafter : after.Spawns child id) : ex.Spawns child id := by
    obtain ⟨body, next, hparked⟩ := hafter
    exact ⟨body, next, (hstage id).symm.trans hparked⟩
  refine ⟨fun id op stage hop hbody => ?_, fun id hnone => ?_, fun id primitive next hbody => ?_,
    fun id child hchild => ?_, fun id other child hid hother => ?_⟩
  · obtain ⟨old, hold, hwoken⟩ := hwakes.exists_of_operation? hop
    rw [hstage] at hbody
    refine (h.accords id old stage hold hbody).wakes hwoken (fun other hother => ?_) (hturn id)
    rwa [hwakes.isCompleted_eq]
  · rw [hstage] at hnone
    exact h.unknown id hnone
  · rw [hstage] at hbody
    exact (h.known id primitive next hbody).mono (Nat.le_of_eq hwakes.length.symm)
      hwakes.resources
  · rw [hstage]
    exact h.announced id child (hspawns hchild)
  · exact h.unique id other child (hspawns hid) (hspawns hother)

/-- Moving a body keeps the order if it stands where its operation, the turn and its call say. -/
theorem Orderly.moves (h : ex.Orderly pending hadTurn) {id : OperationId}
    {change : Operation → Operation} {stage old : Stage σ} {op : Operation}
    {call : Option (Request σ)} (hmoves : ex.Moves id change stage after)
    (hop : ex.iteration.operation? id = some op) (hleft : op.status ≠ .completed)
    (hold : ex.stage? id = some old) (hunspawned : ∀ other, ¬ ex.Spawns id other)
    (hturn : ∀ other, other ≠ id → hadTurn other → hasTurn other)
    (haccords : stage.Accords after.iteration.isCompleted (hasTurn id) (change op) call)
    (hknown : ∀ primitive next, stage = .parked primitive next →
      primitive.IsKnown ex.iteration.operations.length ex.holders.length)
    (hspawns : ∀ child body next, stage = .parked (.spawn child body) next →
      ex.stage? child = some .announced ∧ child ≠ id ∧ ∀ other, ¬ ex.Spawns child other) :
    after.Orderly (Function.update pending id call) hasTurn := by
  have hself := hmoves.stage?_self hold
  have hlength : after.iteration.operations.length = ex.iteration.operations.length := by
    rw [hmoves.operations, List.length_modify]
  have hparked {child other : OperationId} (hafter : after.Spawns child other) :=
    hmoves.spawns ⟨old, hold⟩ hafter
  refine ⟨fun other found body hfound hbody => ?_, fun other hnone => ?_,
    fun other primitive next hbody => ?_, fun other child hchild => ?_,
    fun first second child hfirst hsecond => ?_⟩
  · by_cases hother : other = id
    · subst hother
      rw [hmoves.operation?_self, hop, Option.map_some, Option.some.injEq] at hfound
      rw [hself, Option.some.injEq] at hbody
      subst hfound
      subst hbody
      rw [Function.update_self]
      exact haccords
    · rw [hmoves.operation?_of_ne hother] at hfound
      rw [hmoves.stage?_of_ne hother] at hbody
      rw [Function.update_of_ne hother]
      refine (h.accords other found body hfound hbody).wakes (.refl _ _) (fun done hdone => ?_)
        (hturn other hother)
      refine hmoves.isCompleted (fun old hold => ?_) hdone
      obtain rfl := Option.some.inj (hop.symm.trans hold)
      exact hleft
  · have hother : other ≠ id := by
      rintro rfl
      rw [hself] at hnone
      cases hnone
    rw [Function.update_of_ne hother]
    rw [hmoves.stage?_of_ne hother] at hnone
    exact h.unknown other hnone
  · rw [hlength, hmoves.resources]
    by_cases hother : other = id
    · subst hother
      rw [hself, Option.some.injEq] at hbody
      exact hknown primitive next hbody
    · rw [hmoves.stage?_of_ne hother] at hbody
      exact h.known other primitive next hbody
  · rcases hparked hchild with ⟨rfl, body, next, hstage⟩ | ⟨-, hspawned⟩
    · obtain ⟨hannounced, hne, -⟩ := hspawns child body next hstage
      rw [hmoves.stage?_of_ne hne]
      exact hannounced
    · have hne : child ≠ id := by
        rintro rfl
        exact hunspawned other hspawned
      rw [hmoves.stage?_of_ne hne]
      exact h.announced other child hspawned
  · rcases hparked hfirst with ⟨rfl, body, next, hstage⟩ | ⟨-, hfirstOld⟩
    · rcases hparked hsecond with ⟨rfl, -⟩ | ⟨-, hsecondOld⟩
      · rfl
      · exact absurd hsecondOld ((hspawns child body next hstage).2.2 second)
    · rcases hparked hsecond with ⟨rfl, body, next, hstage⟩ | ⟨-, hsecondOld⟩
      · exact absurd hfirstOld ((hspawns child body next hstage).2.2 first)
      · exact h.unique first second child hfirstOld hsecondOld

/-- The bodies after an operation is registered. -/
theorem stage?_enroll (hsettled : ex.Settled) (name : String) (id : OperationId) :
    (ex.enroll name).stage? id =
      if id.index = ex.iteration.operations.length then some .announced else ex.stage? id := by
  rw [stage?, enroll, getElem?_snoc, hsettled.stages, stage?]

/-- A body that is parked after an operation is registered was parked before. -/
theorem stage?_of_enroll (hsettled : ex.Settled) {name : String} {id : OperationId}
    {primitive : Primitive σ} {next : σ}
    (h : (ex.enroll name).stage? id = some (.parked primitive next)) :
    ex.stage? id = some (.parked primitive next) := by
  rw [stage?_enroll hsettled] at h
  split at h
  · cases h
  · exact h

/-- No body stands where none is registered. -/
theorem Settled.stage?_eq_none (hsettled : ex.Settled) {id : OperationId}
    (hid : id.index = ex.iteration.operations.length) : ex.stage? id = none := by
  rw [stage?, List.getElem?_eq_none]
  rw [hsettled.stages, hid]

/-- Registering an operation keeps the order: its body is announced. -/
theorem Orderly.enroll (h : ex.Orderly pending hasTurn) (hsettled : ex.Settled) (name : String) :
    (ex.enroll name).Orderly pending hasTurn := by
  have hoperation (id : OperationId) : (ex.enroll name).iteration.operation? id =
      if id.index = ex.iteration.operations.length then
        some (Operation.new ⟨ex.iteration.operations.length⟩ name)
      else ex.iteration.operation? id := by
    rw [Iteration.operation?, Execution.enroll, Iteration.register, getElem?_snoc,
      Iteration.operation?]
  have hkept {id : OperationId} (hid : ex.iteration.isCompleted id = true) :
      (ex.enroll name).iteration.isCompleted id = true := by
    rw [Iteration.isCompleted, Option.any_eq_true] at hid ⊢
    obtain ⟨op, hop, hdone⟩ := hid
    have hbound := (List.getElem?_eq_some_iff.mp hop).1
    exact ⟨op, by rw [hoperation, if_neg (Nat.ne_of_lt hbound), hop], hdone⟩
  have hspawns {child id : OperationId} (hafter : (ex.enroll name).Spawns child id) :
      ex.Spawns child id := by
    obtain ⟨body, next, hbody⟩ := hafter
    exact ⟨body, next, stage?_of_enroll hsettled hbody⟩
  refine ⟨fun id op stage hop hbody => ?_, fun id hnone => ?_, fun id primitive next hbody => ?_,
    fun id child hchild => ?_, fun id other child hid hother => ?_⟩
  · rw [stage?_enroll hsettled] at hbody
    rw [hoperation] at hop
    split at hbody
    · next hnew =>
      rw [if_pos hnew, Option.some.injEq] at hop
      obtain rfl := Option.some.inj hbody
      rw [h.unknown id (hsettled.stage?_eq_none hnew)]
      exact .announced (by rw [← hop]; rfl)
    · next hknown =>
      rw [if_neg hknown] at hop
      exact (h.accords id op stage hop hbody).wakes (.refl _ op) (fun _ => hkept) fun hturn => hturn
  · rw [stage?_enroll hsettled] at hnone
    split at hnone
    · cases hnone
    · exact h.unknown id hnone
  · refine (h.known id primitive next (stage?_of_enroll hsettled hbody)).mono ?_ (Nat.le_refl _)
    rw [Execution.enroll, Iteration.register, List.length_append]
    exact Nat.le_add_right _ _
  · rw [stage?_enroll hsettled]
    split
    · rfl
    · exact h.announced id child (hspawns hchild)
  · exact h.unique id other child (hspawns hid) (hspawns hother)

end Execution

end ScheduleExplorer
