import ScheduleExplorer.Execution
import ScheduleExplorer.Proofs.Monitors

/-!
# What a step asks of the iteration

A step of an execution changes the program on its own and asks the iteration for at most one thing:
the next turn, a value, or an end. `Execution.turn?` gives the change of the program together with
what is asked, without asking it, and `Turn.settle` asks. `step_eq_settle` says that the two make up
a step.

So a fact about scheduling points is a fact about the turns `Turn.point`, and a fact about two
executions with different strategies needs the strategies only in `Turn.settle`.
-/

namespace ScheduleExplorer

variable {γ σ μ : Type} [RandomSource γ]

/-- The change that a step makes to the program, and what the step asks of the iteration. -/
inductive Turn (γ σ μ : Type) where
  /-- Nothing is asked. -/
  | quiet (ex : Execution γ σ μ)
  /-- The running operation passes the turn on. -/
  | point (ex : Execution γ σ μ)
  /-- The running operation asks for a value. -/
  | choice (id : OperationId) (next : σ) (query : Query) (wrap : query.Answer → Reply)
      (ex : Execution γ σ μ)
  /-- The iteration ends with a bug. -/
  | bug (kind : BugKind) (message : String) (ex : Execution γ σ μ)
  /-- The iteration is given up. -/
  | fault (cause : Fault) (ex : Execution γ σ μ)

namespace Turn

/-- Asks the iteration. -/
def settle : Turn γ σ μ → Execution γ σ μ
  | quiet ex => ex
  | point ex => ex.reschedule
  | choice id next query wrap ex => ex.choose id next query wrap
  | bug kind message ex => ex.mapIteration (·.reportBug kind message)
  | fault cause ex => ex.abort cause

/-- The execution before the iteration is asked. -/
def execution : Turn γ σ μ → Execution γ σ μ
  | quiet ex | point ex | choice _ _ _ _ ex | bug _ _ ex | fault _ ex => ex

end Turn

namespace Execution

/-- The operation is parked at a primitive, and its next step and the state of the program are
recorded. -/
def park (program : Program σ μ) (id : OperationId) (primitive : Primitive σ) (next : σ)
    (describe : Operation → Operation) (ex : Execution γ σ μ) : Execution γ σ μ :=
  (ex.setStage id (.parked primitive next)).mapIteration fun it =>
    (it.update id describe).recordState (ex.hashes program)

/-- The turn of a primitive that is carried out. -/
def grantTurn (id : OperationId) (next : σ) (ex : Execution γ σ μ) : Primitive σ → Turn γ σ μ
  | .start => .quiet (ex.reply id next .done)
  | .resume => .quiet (ex.reply id next .done)
  | .spawn child body => .quiet ((ex.begin child body).reply id next (.operation child))
  | .join targets all =>
    if ex.isJoined targets all then .quiet (ex.reply id next .done)
    else
      .point ((ex.setStage id (.parked .resume next)).updateOperation id
        (Operation.waitTasks targets all))
  | .send target message => .quiet ((ex.deliver id target message).reply id next .done)
  | .receive events =>
    match ex.takeMessage? id events with
    | some (envelope, ex) =>
      .quiet ((ex.updateOperation id (Operation.receive envelope.sendStep)).reply id next
        (.message envelope.message))
    | none => .point (ex.updateOperation id (Operation.waitEvents events))
  | .acquire resource =>
    match ex.holder? resource with
    | none => .quiet ((ex.setHolder resource (some id)).reply id next .done)
    | some holder =>
      if holder = id then .bug .assertion s!"{id} acquired {resource} twice" ex
      else .point (ex.updateOperation id (Operation.waitResource resource))
  | .release resource =>
    if ex.holder? resource = some id then .quiet ((ex.free resource).reply id next .done)
    else .bug .assertion s!"{id} released {resource} without holding it" ex

/-- A registered operation whose spawn is still to be carried out. -/
def enroll (name : String) (ex : Execution γ σ μ) : Execution γ σ μ :=
  { ex with
    iteration := (ex.iteration.register name).2
    stages := ex.stages ++ [Stage.announced]
    inboxes := ex.inboxes ++ [[]] }

/-- The turn of a call on a resource. -/
def resourceTurn (program : Program σ μ) (id : OperationId) (next : σ) (resource : ResourceId)
    (kind : StepKind) (primitive : Primitive σ) (ex : Execution γ σ μ) : Turn γ σ μ :=
  if ex.isKnownResource resource then
    .point (ex.park program id primitive next (Operation.announce kind .resource resource.index))
  else .fault (.execution s!"unknown {resource}") ex

/-- The turn of a join. -/
def joinTurn (program : Program σ μ) (id : OperationId) (next : σ) (targets : List OperationId)
    (all : Bool) (ex : Execution γ σ μ) : Turn γ σ μ :=
  match targets.find? fun target => !ex.isKnownOperation target with
  | some target => .fault (.unknownOperation target) ex
  | none => .point (ex.park program id (.join targets all) next (Operation.announceJoin targets))

/-- The turn of a call. -/
def callTurn (program : Program σ μ) (id : OperationId) (next : σ) (ex : Execution γ σ μ) :
    Request σ → Turn γ σ μ
  | .yield => .point (ex.park program id .resume next (Operation.announce .yield .task id.index))
  | .spawn name body =>
    let child : OperationId := ⟨ex.iteration.operations.length⟩
    .point ((ex.enroll name).park program id (.spawn child body) next
      (Operation.announce .create .task child.index))
  | .join targets => ex.joinTurn program id next targets true
  | .joinAny targets =>
    if targets.isEmpty then .quiet (ex.reply id next .done)
    else ex.joinTurn program id next targets false
  | .send target message =>
    if ex.isKnownOperation target then
      .point (ex.park program id (.send target message) next
        (Operation.announce .send .inbox target.index))
    else .fault (.unknownOperation target) ex
  | .receive events =>
    .point (ex.park program id (.receive events) next
      (Operation.announce .receive .inbox id.index))
  | .createResource =>
    .quiet ({ ex with holders := ex.holders ++ [none] }.reply id next
      (.resource ⟨ex.holders.length⟩))
  | .acquire resource => ex.resourceTurn program id next resource .acquire (.acquire resource)
  | .release resource => ex.resourceTurn program id next resource .release (.release resource)
  | .boolean => .choice id next (.boolean 2) .boolean ex
  | .integer max => .choice id next (.integer max) .integer ex
  | .assert condition message =>
    if condition then .quiet (ex.reply id next .done) else .bug .assertion message ex
  | .setMonitor monitor isHot =>
    if ex.iteration.monitors.isKnown monitor then
      .quiet ((ex.mapIteration fun it => { it with monitors := it.monitors.set monitor isHot }).reply
        id next .done)
    else .fault (.execution s!"unknown {monitor}") ex
  | .foreignCall thread owner =>
    let name := thread.getD "<unnamed>"
    .bug .assertion s!"uncontrolled thread '{name}' invoked a controlled primitive of {owner}" ex

/-- The turn of an action. -/
def actTurn (program : Program σ μ) (id : OperationId) (ex : Execution γ σ μ) :
    Action σ → Turn γ σ μ
  | .work next => .quiet (ex.reply id next .done)
  | .call request next => ex.callTurn program id next request
  | .finish => .point ((ex.setStage id .ended).updateOperation id Operation.complete)
  | .raise message => .bug .panic s!"{id} panicked: {message}" (ex.setStage id .ended)
  | .giveUp => .quiet (ex.setStage id .ended)

/-- The turn of the next step, if there is one. -/
def turn? (program : Program σ μ) (ex : Execution γ σ μ) : Option (Turn γ σ μ) :=
  let id := ex.iteration.current
  if ex.iteration.isRunning then
    match ex.stage? id with
    | some (.parked primitive next) =>
      if ex.isEnabled id then some (ex.grantTurn id next primitive) else none
    | some (.running state reply) =>
      let (action, memory) := program.resume id state reply ex.memory
      some ({ ex with memory }.actTurn program id action)
    | _ => none
  else none

omit [RandomSource γ] in
/-- A turn is taken by a running iteration: what the next operation has parked is granted, or its
body runs on. -/
theorem turn?_cases {program : Program σ μ} {ex : Execution γ σ μ} {turn : Turn γ σ μ}
    (hturn : ex.turn? program = some turn) :
    ex.iteration.isRunning = true ∧
      ((∃ primitive next, ex.stage? ex.iteration.current = some (.parked primitive next) ∧
        ex.isEnabled ex.iteration.current = true ∧
        turn = ex.grantTurn ex.iteration.current next primitive) ∨
      ∃ state reply, ex.stage? ex.iteration.current = some (.running state reply) ∧
        turn = actTurn program ex.iteration.current
          { ex with memory := (program.resume ex.iteration.current state reply ex.memory).2 }
          (program.resume ex.iteration.current state reply ex.memory).1) := by
  rw [turn?] at hturn
  dsimp only at hturn
  split at hturn
  · next hrunning =>
    refine ⟨hrunning, ?_⟩
    split at hturn
    · next primitive next hstage =>
      split at hturn
      · next henabled =>
        exact .inl ⟨primitive, next, hstage, henabled, (Option.some.inj hturn).symm⟩
      · cases hturn
    · next state reply hstage =>
      exact .inr ⟨state, reply, hstage, (Option.some.inj hturn).symm⟩
    · cases hturn
  · cases hturn

omit [RandomSource γ] in
/-- Taking a message changes the inbox that it is taken from and nothing else. -/
theorem exists_of_takeMessage? {ex after : Execution γ σ μ} {id : OperationId}
    {events : List EventType} {envelope : Envelope}
    (htake : ex.takeMessage? id events = some (envelope, after)) :
    ∃ inbox rest, ex.inboxes[id.index]? = some inbox ∧
      inbox.take? events = some (envelope, rest) ∧
      after = { ex with inboxes := ex.inboxes.set id.index rest } := by
  simp only [takeMessage?, Option.bind_eq_bind, Option.bind_eq_some_iff, Option.pure_def,
    Option.some.injEq, Prod.mk.injEq, Prod.exists] at htake
  obtain ⟨inbox, hinbox, taken, rest, hrest, rfl, rfl⟩ := htake
  exact ⟨inbox, rest, hinbox, hrest, rfl⟩

/-- Carrying out a primitive is to take its turn and to ask for it. -/
theorem grant_eq_settle (id : OperationId) (next : σ) (ex : Execution γ σ μ)
    (primitive : Primitive σ) : ex.grant id next primitive = (ex.grantTurn id next primitive).settle := by
  cases primitive with
  | join targets all =>
    simp only [grant, grantTurn]
    split <;> rfl
  | receive events =>
    simp only [grant, grantTurn]
    cases ex.takeMessage? id events <;> rfl
  | acquire resource =>
    simp only [grant, grantTurn]
    cases ex.holder? resource with
    | none => rfl
    | some holder =>
      dsimp only
      split <;> rfl
  | release resource =>
    simp only [grant, grantTurn]
    split <;> rfl
  | _ => rfl

/-- Calling a primitive is to take its turn and to ask for it. -/
theorem call_eq_settle (program : Program σ μ) (id : OperationId) (next : σ)
    (ex : Execution γ σ μ) (request : Request σ) :
    ex.call program id next request = (ex.callTurn program id next request).settle := by
  have hjoin (targets : List OperationId) (all : Bool) :
      ex.beginJoin program id next targets all =
        (ex.joinTurn program id next targets all).settle := by
    rw [beginJoin, joinTurn]
    cases targets.find? fun target => !ex.isKnownOperation target <;> rfl
  have hresource (resource : ResourceId) (kind : StepKind) (primitive : Primitive σ) :
      ex.beginOnResource program id next resource kind primitive =
        (ex.resourceTurn program id next resource kind primitive).settle := by
    rw [beginOnResource, resourceTurn]
    split <;> rfl
  cases request with
  | join targets => exact hjoin targets true
  | joinAny targets =>
    simp only [call, callTurn]
    split
    · rfl
    · exact hjoin targets false
  | acquire resource => exact hresource resource _ _
  | release resource => exact hresource resource _ _
  | send target message =>
    simp only [call, callTurn]
    split <;> rfl
  | assert condition message =>
    simp only [call, callTurn]
    split <;> rfl
  | setMonitor monitor isHot =>
    simp only [call, callTurn]
    split <;> rfl
  | _ => rfl

/-- A step is a turn that is asked for. -/
theorem step_eq_settle (program : Program σ μ) (ex : Execution γ σ μ) :
    ex.step program = (ex.turn? program).map Turn.settle := by
  have hact (id : OperationId) (ex : Execution γ σ μ) (action : Action σ) :
      ex.act program id action = (ex.actTurn program id action).settle := by
    cases action with
    | call request next => exact call_eq_settle program id next ex request
    | _ => rfl
  simp only [step, turn?]
  by_cases hrunning : ex.iteration.isRunning
  · rw [if_pos hrunning, if_pos hrunning]
    cases ex.stage? ex.iteration.current with
    | none => rfl
    | some stage =>
      cases stage with
      | announced => rfl
      | ended => rfl
      | running state reply =>
        dsimp only
        rw [hact, Option.map_some]
      | parked primitive next =>
        dsimp only
        split
        · rw [grant_eq_settle, Option.map_some]
        · rfl
  · rw [if_neg hrunning, if_neg hrunning, Option.map_none]

/-! ### What a turn leaves alone -/

/-- Two executions have the same iteration up to its operations, its coverage and how hot its
monitors are. -/
def SameRun (ex after : Execution γ σ μ) : Prop :=
  ∃ operations coverage monitors, after.iteration =
      { ex.iteration with
        operations
        coverage
        monitors := { ex.iteration.monitors with monitors } } ∧
    monitors.map Monitor.cool = ex.iteration.monitors.monitors.map Monitor.cool

end Execution

/-- A turn leaves the run of an execution alone, and a bug that it reports is an assertion or a
panic. -/
def Turn.IsOf (ex : Execution γ σ μ) : Turn γ σ μ → Prop
  | .bug kind _ after => ex.SameRun after ∧ (kind = .assertion ∨ kind = .panic)
  | turn => ex.SameRun turn.execution

omit [RandomSource γ] in
/-- A turn leaves the run alone. -/
theorem Turn.IsOf.sameRun {ex : Execution γ σ μ} {turn : Turn γ σ μ} (h : turn.IsOf ex) :
    ex.SameRun turn.execution := by
  cases turn with
  | bug => exact h.1
  | _ => exact h

namespace Execution

omit [RandomSource γ] in
/-- Carrying out a primitive leaves the run alone. -/
theorem isOf_grantTurn (id : OperationId) (next : σ) (ex : Execution γ σ μ)
    (primitive : Primitive σ) : (ex.grantTurn id next primitive).IsOf ex := by
  cases primitive with
  | join targets all =>
    simp only [grantTurn]
    split <;> exact ⟨_, _, _, rfl, rfl⟩
  | receive events =>
    simp only [grantTurn]
    cases htake : ex.takeMessage? id events with
    | none => exact ⟨_, _, _, rfl, rfl⟩
    | some taken =>
      obtain ⟨envelope, after⟩ := taken
      obtain ⟨inbox, rest, -, -, rfl⟩ := exists_of_takeMessage? htake
      exact ⟨_, _, _, rfl, rfl⟩
  | acquire resource =>
    simp only [grantTurn]
    cases ex.holder? resource with
    | none => exact ⟨_, _, _, rfl, rfl⟩
    | some holder =>
      dsimp only
      split
      · exact ⟨⟨_, _, _, rfl, rfl⟩, .inl rfl⟩
      · exact ⟨_, _, _, rfl, rfl⟩
  | release resource =>
    simp only [grantTurn]
    split
    · exact ⟨_, _, _, rfl, rfl⟩
    · exact ⟨⟨_, _, _, rfl, rfl⟩, .inl rfl⟩
  | _ => exact ⟨_, _, _, rfl, rfl⟩

omit [RandomSource γ] in
/-- A call leaves the run alone. -/
theorem isOf_callTurn (program : Program σ μ) (id : OperationId) (next : σ)
    (ex : Execution γ σ μ) (request : Request σ) :
    (ex.callTurn program id next request).IsOf ex := by
  have hjoin (targets : List OperationId) (all : Bool) :
      (ex.joinTurn program id next targets all).IsOf ex := by
    rw [joinTurn]
    split <;> exact ⟨_, _, _, rfl, rfl⟩
  have hresource (resource : ResourceId) (kind : StepKind) (primitive : Primitive σ) :
      (ex.resourceTurn program id next resource kind primitive).IsOf ex := by
    rw [resourceTurn]
    split <;> exact ⟨_, _, _, rfl, rfl⟩
  cases request with
  | join targets => exact hjoin targets true
  | joinAny targets =>
    simp only [callTurn]
    split
    · exact ⟨_, _, _, rfl, rfl⟩
    · exact hjoin targets false
  | acquire resource => exact hresource resource _ _
  | release resource => exact hresource resource _ _
  | send target message =>
    simp only [callTurn]
    split <;> exact ⟨_, _, _, rfl, rfl⟩
  | assert condition message =>
    simp only [callTurn]
    split
    · exact ⟨_, _, _, rfl, rfl⟩
    · exact ⟨⟨_, _, _, rfl, rfl⟩, .inl rfl⟩
  | foreignCall thread owner => exact ⟨⟨_, _, _, rfl, rfl⟩, .inl rfl⟩
  | setMonitor monitor isHot =>
    simp only [callTurn]
    split
    · exact ⟨_, _, _, rfl, Monitors.map_cool_set monitor isHot _⟩
    · exact ⟨_, _, _, rfl, rfl⟩
  | _ => exact ⟨_, _, _, rfl, rfl⟩

omit [RandomSource γ] in
/-- A turn is taken by a running iteration that it leaves alone. -/
theorem isOf_turn {program : Program σ μ} {ex : Execution γ σ μ} {turn : Turn γ σ μ}
    (hturn : ex.turn? program = some turn) :
    ex.iteration.isRunning = true ∧ turn.IsOf ex := by
  obtain ⟨hrunning, ⟨primitive, next, -, -, rfl⟩ | ⟨state, reply, -, rfl⟩⟩ := turn?_cases hturn
  · exact ⟨hrunning, isOf_grantTurn _ _ _ _⟩
  · refine ⟨hrunning, ?_⟩
    cases (program.resume ex.iteration.current state reply ex.memory).1 with
    | call request next => exact isOf_callTurn program _ next _ request
    | raise message => exact ⟨⟨_, _, _, rfl, rfl⟩, .inr rfl⟩
    | _ => exact ⟨_, _, _, rfl, rfl⟩

end Execution

end ScheduleExplorer
