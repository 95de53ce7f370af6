import ScheduleExplorer.Proofs.Execution.Recorded
import ScheduleExplorer.Proofs.Execution.Views
import ScheduleExplorer.Proofs.Strategy.Temperatures

/-!
# Turns of executions

`Execution.Plays` is a turn of an execution: the operation that has the turn takes its steps up to its
next scheduling point, and its controlled choices get given values. What an iteration does in between
is left out, so that the turn may be given to any operation (`Execution.giveTurn`) and a choice may
have any value, whatever the strategy. The steps of a run under a strategy are steps of turns
(`Execution.exists_moves`), and turns of executions are turns of their outlooks
(`Execution.Plays.outlook`, `Execution.exists_plays`).
-/

namespace ScheduleExplorer

variable {γ σ μ : Type}

/-! ### Outlooks of steps -/

namespace Iteration

variable [RandomSource γ] {it after : Iteration γ}

/-- A consultation that is answered changes no monitor at rest. -/
theorem Consulted.atRest {query : Query} {answer : Option query.Answer}
    (h : Consulted query it (.ok (some answer), after)) :
    after.monitors.SameAtRest it.monitors := by
  cases h with
  | @answered op _ _ _ _ _ hanswer =>
    have hrest := it.strategy.sameAtRest_answer op query it.monitors
    rwa [hanswer] at hrest

/-- Passing the turn on makes no monitor known. -/
theorem Scheduled.isKnown_eq {next : Option OperationId} (h : Scheduled it (.ok next, after))
    (hrunning : after.isRunning = true) : after.monitors.isKnown = it.monitors.isKnown := by
  obtain ⟨selected, op, between, hanswer, -, -, rfl⟩ := h.exists_consulted hrunning
  exact funext hanswer.atRest.isKnown_eq

/-- Giving a value out makes no monitor known. -/
theorem Chosen.isKnown_eq {query : Query} {value : Option query.Answer}
    (h : Chosen query it (.ok value, after)) (hrunning : after.isRunning = true) :
    after.monitors.isKnown = it.monitors.isKnown := by
  obtain ⟨given, between, rfl, hanswer, rfl⟩ := h.exists_consulted hrunning
  exact funext hanswer.atRest.isKnown_eq

end Iteration

namespace Execution

section Steps

variable {program : Program σ μ} {ex after : Execution γ σ μ}

/-- The outlook after the waits for other operations were examined. -/
theorem outlook_ready (h : ex.Settled) {it : Iteration γ}
    (hoperations : it.operations = ex.iteration.enableWaiting.operations)
    (hknows : it.monitors.isKnown = ex.iteration.monitors.isKnown) :
    { ex with iteration := it }.outlook = ex.outlook.ready := by
  apply outlook_reached (f := fun _ slot =>
    { slot with operation := slot.operation.enableIfReady ex.iteration.isCompleted }) rfl
  · intro id
    have hop : it.operation? id =
        (ex.iteration.operation? id).map (Operation.enableIfReady ex.iteration.isCompleted) := by
      rw [← Iteration.operation?_enableWaiting, Iteration.operation?, hoperations]
      rfl
    simp only [slot?, hop, stage?, Option.bind_eq_bind, Option.pure_def]
    cases ex.iteration.operation? id with
    | none => rfl
    | some op =>
      cases ex.stages[id.index]? with
      | none => rfl
      | some stage => cases ex.inboxes[id.index]? <;> rfl
  · intro id slot
    rw [isCompleted_outlook h, Slot.bare, Operation.bare_enableIfReady]
    rfl
  · rw [hoperations, Iteration.enableWaiting, List.length_map]
  · rfl
  · exact hknows
  · rfl

/-- The outlook with which the turn is passed on. -/
theorem outlook_examined (h : ex.Settled) : ex.examined.outlook = ex.outlook.ready :=
  outlook_ready h rfl rfl

/-- A choice is a deed: the body goes on with the value. -/
theorem outlook_drawn {o : Outlook σ μ} {id : OperationId} {memory : μ → μ}
    (houtlook : ex.outlook = o.remember memory) (next : σ) (reply : Reply) :
    (ex.reply id next reply).outlook = o.perform id { move := .runs next reply, memory } := by
  rw [outlook_reply, houtlook, Outlook.perform, Reach.apply_nothing]
  rfl

variable [RandomSource γ]

/-- The outlook after the turn was passed on, by whatever strategy: the waits were examined, and an
enabled operation has the turn. -/
theorem outlook_reschedule (h : ex.Settled) (hrunning : ex.reschedule.iteration.isRunning = true) :
    ex.reschedule.outlook = ex.outlook.ready ∧
      ex.reschedule.isEnabled ex.reschedule.iteration.current = true := by
  have hscheduled := ex.iteration.scheduled
  rw [reschedule] at hrunning ⊢
  generalize ex.iteration.scheduleNext = result at hscheduled hrunning ⊢
  obtain ⟨answer, it⟩ := result
  cases answer with
  | error fault => cases hrunning
  | ok next =>
    obtain ⟨hoperations, op, hop, henabled⟩ := hscheduled.of_isRunning hrunning
    refine ⟨outlook_ready h hoperations (hscheduled.isKnown_eq hrunning), ?_⟩
    change (it.operation? it.current).any _ = true
    rw [hop, Option.any_some, henabled]

/-- The outlook after a value was given out, by whatever strategy. -/
theorem outlook_choose {id : OperationId} {next : σ} {query : Query} {wrap : query.Answer → Reply}
    (hrunning : (ex.choose id next query wrap).iteration.isRunning = true) :
    ∃ value, (ex.choose id next query wrap).outlook =
        ex.outlook.moved id (.runs next (wrap value)) ∧
      (ex.choose id next query wrap).iteration.current = ex.iteration.current := by
  have hchosen := ex.iteration.chosen query
  rw [choose] at hrunning ⊢
  generalize ex.iteration.choose query = result at hchosen hrunning ⊢
  obtain ⟨answer, it⟩ := result
  cases answer with
  | error fault => cases hrunning
  | ok answer =>
    have hgoesOn : it.isRunning = true := by
      cases answer with
      | none => exact hrunning
      | some value => exact hrunning
    obtain ⟨value, rfl, hoperations, hcurrent⟩ := hchosen.of_isRunning hgoesOn
    refine ⟨value, ?_, hcurrent⟩
    have hsame : { ex with iteration := it }.outlook = ex.outlook := by
      have hslots (id : OperationId) : { ex with iteration := it }.slot? id = ex.slot? id := by
        rw [slot?, slot?, Iteration.operation?, hoperations]
        rfl
      apply Outlook.ext
      · exact congrArg List.length hoperations
      · funext id
        exact congrArg (Option.map Slot.bare) (hslots id)
      · rfl
      · exact hchosen.isKnown_eq hgoesOn
      · rfl
    exact (outlook_reply next _).trans (congrArg _ hsame)

omit [RandomSource γ] in
/-- A turn shows what its operation does next. -/
theorem exists_act (h : ex.Settled) {turn : Turn γ σ μ} (hturn : ex.turn? program = some turn) :
    ∃ act, ex.outlook.act? program ex.iteration.current = some act ∧
      turn.Shows ex.iteration.current ex.outlook act := by
  have hrel := rel_act? h (isOf_turn hturn).1 program
  rw [hturn] at hrel
  generalize ex.outlook.act? program ex.iteration.current = act at hrel
  cases hrel with
  | some hshows => exact ⟨_, rfl, hshows⟩

/-- A step of a run that goes on is what its operation does next, whatever the strategy. At a
scheduling point the waits of others are examined and an enabled operation gets the turn. -/
theorem exists_moves (h : ex.Settled) (hstep : ex.step program = some after)
    (hrunning : after.iteration.isRunning = true) :
    ∃ value deed, ex.outlook.Moves program ex.iteration.current value deed ∧
      (deed.move.isPoint = false →
        after.outlook = ex.outlook.perform ex.iteration.current deed ∧
          after.iteration.current = ex.iteration.current) ∧
      (deed.move.isPoint = true →
        after.outlook = (ex.outlook.perform ex.iteration.current deed).ready ∧
          after.isEnabled after.iteration.current = true) := by
  rw [step_eq_settle, Option.map_eq_some_iff] at hstep
  obtain ⟨turn, hturn, rfl⟩ := hstep
  obtain ⟨act, hact, hshows⟩ := exists_act h hturn
  have hrun := (isOf_turn hturn).2.sameRun
  have hsettled := h.turn hturn
  cases hshows with
  | quiet hquiet houtlook =>
    refine ⟨none, _, .does hact, fun _ => ⟨houtlook, hrun.current⟩, fun hpoint => ?_⟩
    cases hquiet.symm.trans hpoint
  | point hpoint houtlook =>
    refine ⟨none, _, .does hact, fun hquiet => ?_, fun _ => ?_⟩
    · cases hquiet.symm.trans hpoint
    · rw [← houtlook]
      exact outlook_reschedule hsettled.execution hrunning
  | choice houtlook =>
    obtain ⟨value, hchosen, hcurrent⟩ := outlook_choose hrunning
    refine ⟨some _, _, .draws hact value, fun _ => ⟨?_, hcurrent.trans hrun.current⟩,
      fun hpoint => by cases hpoint⟩
    rw [Turn.settle, hchosen, houtlook, Outlook.perform, Reach.apply_nothing]
    rfl
  | bug => cases (Iteration.isRunning_reportBug _ _ _).symm.trans hrunning
  | fault => cases hrunning

end Steps

/-! ### Turns -/

/-- Gives the turn to an operation, whatever the strategy. -/
def giveTurn (id : OperationId) (ex : Execution γ σ μ) : Execution γ σ μ :=
  ex.mapIteration fun it => { it with current := id }

/-- The local state from which the body goes on whose turn it is, if it runs. -/
def resumed (ex : Execution γ σ μ) : List (σ × Reply) :=
  (ex.stage? ex.iteration.current).elim [] Stage.resumed

/-- The operation that has the turn takes it up to its next scheduling point, with given values for
its controlled choices. The local states are those from which its body goes on. -/
inductive Plays (program : Program σ μ) :
    List (σ × Reply) → List Decision → Execution γ σ μ → Execution γ σ μ → Prop where
  | point {ex after : Execution γ σ μ} (h : ex.turn? program = some (.point after)) :
      Plays program ex.resumed [] ex after
  | quiet {ex between after : Execution γ σ μ} {states : List (σ × Reply)} {values : List Decision}
      (h : ex.turn? program = some (.quiet between))
      (rest : Plays program states values between after) :
      Plays program (ex.resumed ++ states) values ex after
  | choice {ex between after : Execution γ σ μ} {id : OperationId} {next : σ} {query : Query}
      {wrap : query.Answer → Reply} {states : List (σ × Reply)} {values : List Decision}
      (h : ex.turn? program = some (.choice id next query wrap between)) (value : query.Answer)
      (rest : Plays program states values (between.reply id next (wrap value)) after) :
      Plays program (ex.resumed ++ states) (query.decision value :: values) ex after

section Plays

variable {program : Program σ μ} {ex after : Execution γ σ μ} {states : List (σ × Reply)}
  {values : List Decision}

/-- A settled execution is settled with the turn at another operation. -/
theorem Settled.giveTurn (h : ex.Settled) (id : OperationId) : (ex.giveTurn id).Settled :=
  h.of_same rfl rfl rfl rfl

/-- Where a body stands, as the outlook shows it. -/
theorem stage?_outlook (h : ex.Settled) (id : OperationId) :
    ex.outlook.stage? id = ex.stage? id := by
  change ((ex.slot? id).map Slot.bare).map Slot.stage = _
  rw [Option.map_map]
  cases hstage : ex.stage? id with
  | none =>
    rw [slot?, hstage]
    cases ex.iteration.operation? id <;> rfl
  | some stage =>
    obtain ⟨op, hop⟩ := h.exists_operation? hstage
    obtain ⟨slot, hslot, -⟩ := h.exists_slot hop
    rw [hslot, Option.map_some]
    exact congrArg some (Option.some.inj ((slot?_eq_some.mp hslot).2.1.symm.trans hstage))

/-- The local state from which a body goes on, as the outlook shows it. -/
theorem resumed_outlook (h : ex.Settled) :
    ex.outlook.resumed ex.iteration.current = ex.resumed := by
  rw [Outlook.resumed, stage?_outlook h, resumed]

/-- A turn leaves the execution settled. -/
theorem Plays.settled (h : ex.Plays program states values after) (hsettled : ex.Settled) :
    after.Settled := by
  induction h with
  | point h => exact (hsettled.turn h).execution
  | quiet h rest ih => exact ih (hsettled.turn h).execution
  | choice h value rest ih =>
    have hturn := hsettled.turn h
    exact ih (hturn.1.reply hturn.2.1 _ _)

/-- A turn does not end the iteration. -/
theorem Plays.isRunning (h : ex.Plays program states values after) : after.iteration.isRunning = true := by
  induction h with
  | point h => exact (isOf_turn h).2.sameRun.isRunning.trans (isOf_turn h).1
  | quiet h rest ih => exact ih
  | choice h value rest ih => exact ih

/-- A turn without choices has one outcome. -/
theorem Plays.eq_of_no_choices {other : Execution γ σ μ} {states' : List (σ × Reply)}
    {values' : List Decision} (h : ex.Plays program states values after) (hnone : values = [])
    (hother : ex.Plays program states' values' other) : other = after := by
  induction h generalizing states' with
  | point h =>
    cases hother with
    | point h' =>
      cases h.symm.trans h'
      rfl
    | quiet h' => cases h.symm.trans h'
    | choice h' => cases h.symm.trans h'
  | quiet h rest ih =>
    cases hother with
    | point h' => cases h.symm.trans h'
    | quiet h' rest' =>
      cases h.symm.trans h'
      exact ih hnone rest'
    | choice h' => cases h.symm.trans h'
  | choice => cases hnone

/-- A turn of an execution is a turn of its outlook. -/
theorem Plays.outlook (h : ex.Plays program states values after) (hsettled : ex.Settled) :
    ex.outlook.Plays program ex.iteration.current states values after.outlook := by
  induction h with
  | point h =>
    obtain ⟨act, hact, hshows⟩ := exists_act hsettled h
    cases hshows with
    | point hpoint houtlook =>
      rw [houtlook, ← resumed_outlook hsettled]
      exact .last (.does hact) hpoint
  | @quiet ex between after states values h rest ih =>
    obtain ⟨act, hact, hshows⟩ := exists_act hsettled h
    have hcurrent : between.iteration.current = ex.iteration.current := (isOf_turn h).2.sameRun.current
    cases hshows with
    | quiet hquiet houtlook =>
      have hrest := ih (hsettled.turn h).execution
      rw [houtlook, hcurrent] at hrest
      rw [← resumed_outlook hsettled]
      exact .step (.does hact) hquiet hrest
  | @choice ex between after id next query wrap states values h value rest ih =>
    obtain ⟨act, hact, hshows⟩ := exists_act hsettled h
    have hcurrent : (between.reply id next (wrap value)).iteration.current = ex.iteration.current :=
      (isOf_turn h).2.sameRun.current
    have hturn := hsettled.turn h
    cases hshows with
    | choice houtlook =>
      have hrest := ih (hturn.1.reply hturn.2.1 _ _)
      rw [outlook_drawn houtlook, hcurrent] at hrest
      rw [← resumed_outlook hsettled]
      exact .step (.draws hact value) rfl hrest

/-- What an operation does next is the turn of every execution with this outlook. -/
theorem exists_turn (h : ex.Settled) (hrunning : ex.iteration.isRunning = true) {act : Act σ μ}
    (hact : ex.outlook.act? program ex.iteration.current = some act) :
    ∃ turn, ex.turn? program = some turn ∧ turn.Shows ex.iteration.current ex.outlook act := by
  have hrel := rel_act? h hrunning program
  rw [hact] at hrel
  generalize ex.turn? program = turn at hrel
  cases hrel with
  | some hshows => exact ⟨_, rfl, hshows⟩

/-- A turn of an outlook is a turn of every execution with this outlook. -/
theorem exists_plays {o final : Outlook σ μ} {id : OperationId}
    (h : o.Plays program id states values final) (hsettled : ex.Settled)
    (hrunning : ex.iteration.isRunning = true) (hcurrent : ex.iteration.current = id)
    (houtlook : ex.outlook = o) :
    ∃ after, ex.Plays program states values after ∧ after.outlook = final := by
  induction h generalizing ex with
  | last hmoves hpoint =>
    subst houtlook hcurrent
    rw [resumed_outlook hsettled]
    cases hmoves with
    | does hact =>
      obtain ⟨turn, hturn, hshows⟩ := exists_turn hsettled hrunning hact
      cases hshows with
      | quiet hquiet => cases hquiet.symm.trans hpoint
      | point _ hafter => exact ⟨_, .point hturn, hafter⟩
    | draws => cases hpoint
  | step hmoves hquiet rest ih =>
    subst houtlook hcurrent
    rw [resumed_outlook hsettled]
    cases hmoves with
    | does hact =>
      obtain ⟨turn, hturn, hshows⟩ := exists_turn hsettled hrunning hact
      have hrun := (isOf_turn hturn).2.sameRun
      cases hshows with
      | point hpoint => cases hquiet.symm.trans hpoint
      | quiet _ hbetween =>
        obtain ⟨after, hplays, hafter⟩ := ih (hsettled.turn hturn).execution
          (hrun.isRunning.trans hrunning) hrun.current hbetween
        exact ⟨after, .quiet hturn hplays, hafter⟩
    | draws hact value =>
      obtain ⟨turn, hturn, hshows⟩ := exists_turn hsettled hrunning hact
      have hrun := (isOf_turn hturn).2.sameRun
      have hchoice := hsettled.turn hturn
      cases hshows with
      | choice hbetween =>
        obtain ⟨after, hplays, hafter⟩ := ih (hchoice.1.reply hchoice.2.1 _ _)
          (hrun.isRunning.trans hrunning) hrun.current (outlook_drawn hbetween _ _)
        exact ⟨after, .choice hturn value hplays, hafter⟩

end Plays

end Execution

end ScheduleExplorer
