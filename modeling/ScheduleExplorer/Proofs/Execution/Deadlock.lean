import ScheduleExplorer.Proofs.Execution.SettledSteps
import ScheduleExplorer.Proofs.Random.Lawful

/-!
# No wakeup is lost, and deadlocks are exact

At every scheduling point of every execution, after the waiting operations were examined again, a
blocked operation waits for something that has not happened: `Execution.Waits`. So the iteration
reports a deadlock there exactly if no operation is enabled and one is blocked, unless the step
bound, a violation or a fault ends it first.

That no operation is enabled is read off the strategy, which answers nothing; so this rests on what
every strategy promises (`Strategy.answered`).
-/

namespace ScheduleExplorer

variable {γ σ μ : Type} [RandomSource γ]

namespace Execution

/-- The executions of a program under the strategies of testing runs. -/
inductive Reachable (program : Program σ μ) : Execution γ σ μ → Prop where
  | start {strategy : Strategy γ} (h : strategy.Reachable) (monitors : Monitors)
      (coverage : Coverage) (depthBoundIsBug : Bool) :
      Reachable program (.start program { strategy, monitors, coverage, depthBoundIsBug })
  | step {ex after : Execution γ σ μ} (h : Reachable program ex)
      (hstep : ex.step program = some after) : Reachable program after

/-- Steps lead from reachable executions to reachable ones. -/
theorem Reachable.run {program : Program σ μ} {ex : Execution γ σ μ} (h : ex.Reachable program)
    (fuel : Nat) : (ex.run program fuel).Reachable program := by
  induction fuel generalizing ex with
  | zero => exact h
  | succ fuel ih =>
    rw [Execution.run]
    split
    · next after hstep => exact ih (h.step hstep)
    · exact h

omit [RandomSource γ] in
/-- The main operation waits for nothing. -/
theorem settled_start (program : Program σ μ) {it : Iteration γ} (hit : it.operations = []) :
    (Execution.start program it).Settled := by
  refine ⟨?_, ?_, fun id slot hslot => ?_⟩
  · simp [Execution.start, Iteration.register, Iteration.update, hit]
  · simp [Execution.start, Iteration.register, Iteration.update, hit]
  · obtain ⟨hop, -, -⟩ := slot?_eq_some.mp hslot
    have hone : (Execution.start program it).iteration.operations =
        [(Operation.new ⟨0⟩ "main").create] := by
      simp [Execution.start, Iteration.register, Iteration.update, hit]
    rw [Iteration.operation?, hone, List.getElem?_singleton] at hop
    split at hop
    · next hzero =>
      have hmain := Option.some.inj hop
      cases id
      obtain rfl := hzero
      exact .of_enabled (by rw [← hmain]; rfl) (by rw [← hmain]; rfl)
    · cases hop

/-- Every reachable execution is settled. -/
theorem Reachable.settled {program : Program σ μ} {ex : Execution γ σ μ}
    (h : ex.Reachable program) : ex.Settled := by
  induction h with
  | start => exact settled_start program rfl
  | step _ hstep ih => exact ih.step hstep

/-- Passing the turn on leaves the strategy that was asked. -/
theorem strategy_reschedule (ex : Execution γ σ μ) :
    ex.reschedule.iteration.strategy = ex.iteration.scheduleNext.2.strategy := by
  rw [reschedule]
  split <;>
  · next heq => exact (congrArg (·.2.strategy) heq).symm

/-- Asking for a value leaves the strategy that was asked. -/
theorem strategy_choose (id : OperationId) (next : σ) (query : Query)
    (wrap : query.Answer → Reply) (ex : Execution γ σ μ) :
    (ex.choose id next query wrap).iteration.strategy =
      (ex.iteration.choose query).2.strategy := by
  rw [choose]
  split <;>
  · next heq => exact (congrArg (·.2.strategy) heq).symm

/-- Whatever the iteration is asked for, its strategy stays well-formed. -/
theorem wellFormed_settle [LawfulRandomSource γ] {turn : Turn γ σ μ} (hturn : turn.Settled)
    (h : turn.execution.iteration.strategy.WellFormed) :
    turn.settle.iteration.strategy.WellFormed := by
  cases turn with
  | quiet ex => exact h
  | point ex =>
    rw [Turn.settle, strategy_reschedule]
    exact Iteration.wellFormed_scheduleNext h (Settled.isNumbered hturn)
  | choice id next query wrap ex =>
    rw [Turn.settle, strategy_choose]
    exact Iteration.wellFormed_choose h fun op _ => hturn.2.2.isAskedBy op
  | bug kind message ex =>
    exact (Iteration.sameTable_reportBug kind message ex.iteration).strategy.wellFormed h
  | fault cause ex => exact h

/-- A step keeps the strategy well-formed. -/
theorem wellFormed_step [LawfulRandomSource γ] {program : Program σ μ}
    {ex after : Execution γ σ μ} (hsettled : ex.Settled)
    (h : ex.iteration.strategy.WellFormed) (hstep : ex.step program = some after) :
    after.iteration.strategy.WellFormed := by
  rw [step_eq_settle, Option.map_eq_some_iff] at hstep
  obtain ⟨turn, hturn, rfl⟩ := hstep
  obtain ⟨operations, coverage, monitors, hsame, -⟩ := (isOf_turn hturn).2.sameRun
  refine wellFormed_settle (hsettled.turn hturn) ?_
  rw [hsame]
  exact h

/-- The strategy of every reachable execution is well-formed. -/
theorem Reachable.wellFormed [LawfulRandomSource γ] {program : Program σ μ}
    {ex : Execution γ σ μ} (h : ex.Reachable program) : ex.iteration.strategy.WellFormed := by
  induction h with
  | start hstrategy => exact hstrategy.wellFormed
  | step hreachable hstep ih => exact wellFormed_step hreachable.settled ih hstep

/-! ### What blocked operations wait for -/

/-- The execution with the waiting operations examined again. -/
def examined (ex : Execution γ σ μ) : Execution γ σ μ :=
  ex.mapIteration Iteration.enableWaiting

/-- Every blocked operation waits for something that has not happened: for a message that its receive
accepts, for a resource that another operation holds, or for operations that are not completed. -/
structure Waits (ex : Execution γ σ μ) : Prop where
  receive : ∀ id op, ex.iteration.operation? id = some op → op.status = .blockedOnReceive →
    ∃ next inbox, ex.stage? id = some (.parked (.receive op.awaitedEvents) next) ∧
      ex.inboxes[id.index]? = some inbox ∧
      ∀ envelope ∈ inbox, envelope.isAccepted op.awaitedEvents = false
  resource : ∀ id op, ex.iteration.operation? id = some op → op.status = .blockedOnResource →
    ∃ resource next holder, ex.stage? id = some (.parked (.acquire resource) next) ∧
      op.awaitedResource = some resource ∧ ex.holder? resource = some holder ∧ holder ≠ id
  waitAll : ∀ id op, ex.iteration.operation? id = some op → op.status = .blockedOnWaitAll →
    ∃ other ∈ op.dependencies, ex.iteration.isCompleted other = false
  waitAny : ∀ id op, ex.iteration.operation? id = some op → op.status = .blockedOnWaitAny →
    ∀ other ∈ op.dependencies, ex.iteration.isCompleted other = false

omit [RandomSource γ] in
/-- In a settled execution every blocked operation waits for something that has not happened, once
the waiting operations are examined. -/
theorem Settled.waits {ex : Execution γ σ μ} (h : ex.Settled) : ex.examined.Waits := by
  have hexamined : ex.examined.Settled := h.of_iteration (.inr rfl)
  refine ⟨fun id op hop hblocked => ?_, fun id op hop hblocked => ?_,
    fun id op hop hblocked => ?_, fun id op hop hblocked => ?_⟩
  · obtain ⟨slot, hslot, rfl⟩ := hexamined.exists_slot hop
    obtain ⟨-, hstage, hinbox⟩ := slot?_eq_some.mp hslot
    obtain ⟨⟨next, hparked⟩, hnone⟩ := (hexamined.fits id slot hslot).receive hblocked
    exact ⟨next, slot.inbox, by rw [hstage, hparked], hinbox, hnone⟩
  · obtain ⟨slot, hslot, rfl⟩ := hexamined.exists_slot hop
    obtain ⟨-, hstage, -⟩ := slot?_eq_some.mp hslot
    obtain ⟨resource, next, holder, hparked, hawaits, hholder, hne⟩ :=
      (hexamined.fits id slot hslot).resource hblocked
    exact ⟨resource, next, holder, by rw [hstage, hparked], hawaits, hholder, hne⟩
  · change ex.iteration.enableWaiting.operation? id = some op at hop
    rw [Iteration.operation?_enableWaiting, Option.map_eq_some_iff] at hop
    obtain ⟨old, -, rfl⟩ := hop
    obtain ⟨other, hother, hpending⟩ := Operation.waitAll_enableIfReady hblocked
    exact ⟨other, hother, (Iteration.isCompleted_enableWaiting ex.iteration other).trans hpending⟩
  · change ex.iteration.enableWaiting.operation? id = some op at hop
    rw [Iteration.operation?_enableWaiting, Option.map_eq_some_iff] at hop
    obtain ⟨old, -, rfl⟩ := hop
    intro other hother
    exact (Iteration.isCompleted_enableWaiting ex.iteration other).trans
      (Operation.waitAny_enableIfReady hblocked other hother)

/-! ### Deadlocks -/

omit [RandomSource γ] in
/-- A running iteration that ends without a choice reports a deadlock if an operation is blocked. -/
theorem endWithoutChoice_deadlock_iff {it : Iteration γ} (hrunning : it.isRunning = true) :
    it.endWithoutChoice.phase = .stopped (.bugFound .deadlock) ↔
      it.operations.any (·.status.isBlocked) = true := by
  rw [Iteration.endWithoutChoice]
  split
  · next hblocked => exact iff_of_true (Iteration.phase_reportBug hrunning _ _) hblocked
  · next hfree =>
    rw [Iteration.phase_stop hrunning]
    exact iff_of_false (by decide) hfree

/-- Where nothing is answered although there is neither a violation nor a fault, nothing is
enabled. -/
theorem anyEnabled_eq_false [LawfulRandomSource γ] {current : Operation} {ops : List Operation}
    {strategy after taken : Strategy γ} {monitors checked : Monitors}
    (hquery : (Query.operation ops).IsAskedBy current) (hstrategy : strategy.WellFormed)
    (hanswer : strategy.answer current (.operation ops) monitors = (none, after, checked))
    (hviolation : checked.violation = none) (hfault : after.takeFault = (none, taken)) :
    Operation.anyEnabled ops = false := by
  have hanswered := Strategy.answered hquery hstrategy monitors
  rw [hanswer] at hanswered
  rcases hanswered.none rfl with hnothing | htaken | hviolated
  · simpa [Operation.anyEnabled, Query.alternatives, Operation.enabledIds] using hnothing
  · rw [hfault] at htaken
    cases htaken
  · rw [hviolation] at hviolated
    cases hviolated

/-- At a scheduling point that no bound, violation or fault ends, a deadlock is reported exactly if
no operation is enabled and one is blocked. -/
theorem scheduleNext_deadlock_iff [LawfulRandomSource γ] {it : Iteration γ}
    (hnumbered : it.IsNumbered) (hstrategy : it.strategy.WellFormed)
    (hrunning : it.isRunning = true) (hbound : it.strategy.atBound = false)
    {next : Option OperationId} {after : Iteration γ}
    (hnext : it.scheduleNext = (.ok next, after)) (hviolation : after.monitors.violation = none) :
    after.phase = .stopped (.bugFound .deadlock) ↔
      Operation.anyEnabled it.enableWaiting.operations = false ∧
        it.enableWaiting.operations.any (·.status.isBlocked) = true := by
  have hrunning' : it.enableWaiting.isRunning = true := hrunning
  have hscheduled := it.scheduled
  rw [hnext] at hscheduled
  cases hscheduled with
  | ended h => cases h.symm.trans hrunning
  | completed h =>
    rw [Iteration.phase_stop hrunning']
    refine iff_of_false (by decide) fun hexpected => ?_
    obtain ⟨op, hop, hblocked⟩ := List.any_eq_true.mp hexpected.2
    have hcompleted := List.all_eq_true.mp h op hop
    revert hblocked hcompleted
    cases op.status <;> simp [Status.isBlocked, Status.isCompleted]
  | atBound h => cases h.symm.trans hbound
  | consulted _ hanswer hresult =>
    cases hresult with
    | violated =>
      cases hanswer with
      | violated hop hanswer hviolated =>
        rw [Iteration.monitors_reportBug] at hviolation
        cases hviolated.symm.trans hviolation
    | unanswered =>
      cases hanswer with
      | @answered op answer strategy taken monitors hop hanswer hnone hfault =>
        have hdone : Operation.anyEnabled it.enableWaiting.operations = false :=
          anyEnabled_eq_false (hnumbered.enableWaiting.isAskedBy hop) hstrategy hanswer hnone hfault
        have hgoesOn : ({ it.enableWaiting with strategy := taken, monitors } :
            Iteration γ).isRunning = true := hrunning
        rw [hdone, endWithoutChoice_deadlock_iff hgoesOn]
        exact (and_iff_right rfl).symm
    | scheduled hop henabled =>
      cases hanswer with
      | answered =>
        refine iff_of_false (fun hphase => ?_) fun hexpected => ?_
        · change it.phase = _ at hphase
          rw [Iteration.isRunning, hphase] at hrunning
          cases hrunning
        · have hnone := hexpected.1
          rw [Operation.anyEnabled, List.any_eq_false] at hnone
          exact hnone _ (List.mem_of_getElem? hop) henabled

/-- Nothing but a scheduling point reports a deadlock. -/
theorem point_of_deadlock {ex : Execution γ σ μ} {turn : Turn γ σ μ} (hturn : turn.IsOf ex)
    (hrunning : turn.execution.iteration.isRunning = true)
    (h : turn.settle.iteration.phase = .stopped (.bugFound .deadlock)) :
    ∃ before, turn = .point before := by
  cases turn with
  | quiet after =>
    change after.iteration.isRunning = true at hrunning
    change after.iteration.phase = _ at h
    rw [Iteration.isRunning, h] at hrunning
    cases hrunning
  | point before => exact ⟨before, rfl⟩
  | choice id next query wrap before =>
    have hne := before.iteration.phase_choose_ne_deadlock query hrunning
    rw [Turn.settle, choose] at h
    split at h
    · next heq =>
      rw [heq] at hne
      exact absurd h hne
    · next heq =>
      rw [heq] at hne
      exact absurd h hne
    · cases h
  | bug kind message before =>
    change before.iteration.isRunning = true at hrunning
    change (before.iteration.reportBug kind message).phase = _ at h
    rw [Iteration.phase_reportBug hrunning] at h
    rcases hturn.2 with rfl | rfl <;> cases h
  | fault cause before => cases h

/-- At every scheduling point of every execution, once the waiting operations are examined again,
every blocked operation waits for something that has not happened; and unless the step bound, a
violation or a fault ends the iteration there, it reports a deadlock exactly if no operation is
enabled and one is blocked. No other step reports a deadlock. -/
theorem no_lost_wakeup_and_exact_deadlocks [LawfulRandomSource γ] {program : Program σ μ}
    {ex after : Execution γ σ μ} (h : ex.Reachable program)
    (hstep : ex.step program = some after) :
    (∀ point, ex.turn? program = some (.point point) →
      after = point.reschedule ∧ point.examined.Waits ∧
        (point.examined.iteration.strategy.atBound = false →
          after.iteration.monitors.violation = none → after.iteration.fault = none →
          (after.iteration.phase = .stopped (.bugFound .deadlock) ↔
            Operation.anyEnabled point.examined.iteration.operations = false ∧
              point.examined.iteration.operations.any (·.status.isBlocked) = true))) ∧
    (after.iteration.phase = .stopped (.bugFound .deadlock) →
      ∃ point, ex.turn? program = some (.point point)) := by
  rw [step_eq_settle, Option.map_eq_some_iff] at hstep
  obtain ⟨turn, hturn, rfl⟩ := hstep
  obtain ⟨hrunning, hof⟩ := isOf_turn hturn
  obtain ⟨operations, coverage, monitors, hsame, -⟩ := hof.sameRun
  have hrunning' : turn.execution.iteration.isRunning = true := by
    rw [hsame]
    exact hrunning
  have hstrategy : turn.execution.iteration.strategy.WellFormed := by
    rw [hsame]
    exact h.wellFormed
  have hsettled := h.settled.turn hturn
  refine ⟨fun point hpoint => ?_, fun hdeadlock => ?_⟩
  · obtain rfl := Option.some.inj (hturn.symm.trans hpoint)
    refine ⟨rfl, hsettled.waits, fun hbound hviolation hfault => ?_⟩
    rw [Turn.settle] at hviolation hfault ⊢
    rw [reschedule] at hviolation hfault ⊢
    generalize hnext : point.iteration.scheduleNext = result at hviolation hfault ⊢
    obtain ⟨answer, it⟩ := result
    cases answer with
    | ok next =>
      exact scheduleNext_deadlock_iff (Settled.isNumbered hsettled) hstrategy hrunning' hbound
        hnext hviolation
    | error fault =>
      change (it.fault <|> some fault) = none at hfault
      cases hprior : it.fault <;> rw [hprior] at hfault <;> cases hfault
  · obtain ⟨point, rfl⟩ := point_of_deadlock hof hrunning' hdeadlock
    exact ⟨point, hturn⟩

/-- A program whose only operation waits for a message. -/
def receiver : Program Nat Unit where
  main := 0
  memory := ()
  resume _ state _ memory := (if state = 0 then .call (.receive []) 1 else .finish, memory)
  hasher := some fun _ => {}

/-- The first execution of the program under depth-first search. -/
def receiverStart : Execution Tape Nat Unit :=
  .start receiver { strategy := Config.build {} (fun _ => ⟨#[], 0, 0⟩) .depthFirst 0 }

/-- The operation waits at its receive, and that is a deadlock. -/
theorem no_lost_wakeup_and_exact_deadlocks_receiver :
    (receiverStart.run receiver 3).iteration.phase = .stopped (.bugFound .deadlock) ∧
      ∃ point, (receiverStart.run receiver 2).turn? receiver = some (.point point) ∧
        point.examined.Waits := by
  have hreachable : (receiverStart.run receiver 2).Reachable receiver :=
    (Reachable.start (.built _ _ _ _) {} {} false).run 2
  have hstep : (receiverStart.run receiver 2).step receiver = some (receiverStart.run receiver 3) :=
    rfl
  have hdeadlock : (receiverStart.run receiver 3).iteration.phase =
      .stopped (.bugFound .deadlock) := rfl
  obtain ⟨hpoints, hpoint⟩ := no_lost_wakeup_and_exact_deadlocks hreachable hstep
  obtain ⟨point, hturn⟩ := hpoint hdeadlock
  exact ⟨hdeadlock, point, hturn, (hpoints point hturn).2.1⟩

end Execution

end ScheduleExplorer
