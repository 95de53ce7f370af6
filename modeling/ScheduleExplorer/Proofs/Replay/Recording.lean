import ScheduleExplorer.Proofs.Execution.Scheduling
import ScheduleExplorer.Proofs.Replay.Twin
import ScheduleExplorer.Proofs.Strategy.Watching

/-!
# Recordings

A recording is what a replay is made from. The strategy that replays it answers a query with the
recorded decision if that is a possible answer, and nothing where nothing is possible, after the same
checks of the monitors as the strategy that was recorded. Under it an iteration ends as it does under
any other strategy that is as fair and has taken as many steps.
-/

namespace ScheduleExplorer

variable {γ σ μ : Type}

/-- What a replay is made from: a trace, a step bound, and whether it counts as fair and watches the
monitors. -/
structure Recording where
  trace : Trace
  bound : Nat
  isFair : Bool
  isWatched : Bool

namespace Replay

/-- The decision that was recorded for a possible answer gives this answer. -/
theorem reply_decision {query : Query} {value : query.Answer} (h : value ∈ query.alternatives) :
    reply (query.decision value) query = .ok value := by
  cases query with
  | operation ops =>
    have henabled : Operation.isEnabledIn ops value = true := by
      simpa [Query.alternatives, Operation.mem_enabledIds, Operation.isEnabledIn, and_comm] using h
    simp only [Query.decision, reply, henabled, if_true]
  | boolean bound => rfl
  | integer bound =>
    have hlt : value < max bound 1 := Query.mem_alternatives_integer.mp h
    simp only [Query.decision, reply, hlt, if_true]

/-- A query with a possible answer can be answered. -/
theorem isAnswerable_of_mem {query : Query} {value : query.Answer}
    (h : value ∈ query.alternatives) : isAnswerable query = true := by
  by_contra hnot
  rw [alternatives_eq_nil (Bool.eq_false_iff.mpr hnot)] at h
  exact absurd h List.not_mem_nil

/-- A query without a possible answer cannot be answered. -/
theorem isAnswerable_eq_false {query : Query} (h : query.alternatives = []) :
    isAnswerable query = false := by
  cases query with
  | operation ops =>
    simpa [isAnswerable, Operation.anyEnabled, Query.alternatives, Operation.enabledIds] using h
  | boolean bound => cases h
  | integer bound =>
    have hnone : max bound 1 = 0 := List.range_eq_nil.mp h
    omega

end Replay

namespace Recording

/-- The replay after a number of decisions. -/
def replay (r : Recording) (count : Nat) : Replay where
  trace := r.trace
  position := count
  steps := count
  maxSteps := r.bound
  isFair := r.isFair

/-- The strategy that replays, after a number of decisions. -/
def strategy (r : Recording) (count : Nat) : Strategy γ :=
  .watch r.isWatched (.replay (r.replay count))

section Shape

variable (r : Recording) (count : Nat)

/-- The strategy of a recording is fair if the recording is. -/
@[simp] theorem isFair_strategy : (r.strategy count : Strategy γ).isFair = r.isFair :=
  Strategy.isFair_watch _ _

/-- The strategy has taken the steps that have been replayed. -/
@[simp] theorem steps_strategy : (r.strategy count : Strategy γ).steps = count :=
  Strategy.steps_watch _ _

/-- The strategy is at its bound when the recording is. -/
@[simp] theorem atBound_strategy :
    (r.strategy count : Strategy γ).atBound = boundReached count r.bound :=
  Strategy.atBound_watch _ _

/-- Before a divergence the strategy has no fault. -/
@[simp] theorem takeFault_strategy :
    (r.strategy count : Strategy γ).takeFault = (none, r.strategy count) :=
  Strategy.takeFault_watch _ _

/-- The strategy of a recording takes no notice of a bug. -/
@[simp] theorem notifyBug_strategy :
    (r.strategy count : Strategy γ).notifyBug = r.strategy count := by
  unfold strategy
  cases r.isWatched <;> rfl

/-- A replaying strategy watches at the outside or not at all. -/
theorem isOutermost_strategy : (r.strategy count : Strategy γ).IsOutermost ∧
    (r.strategy count : Strategy γ).isDecorated = r.isWatched :=
  Strategy.isOutermost_watch _ rfl

end Shape

/-- The replay answers a query with the recorded decision, if that is a possible answer. -/
theorem answer_replay {r : Recording} {count : Nat} {query : Query} {value : query.Answer}
    (hmem : value ∈ query.alternatives)
    (hrecorded : r.trace.get? count = some (query.decision value)) :
    (r.replay count).answer query = (some value, r.replay (count + 1)) := by
  have hskip : (!Replay.isAnswerable query || (r.replay count).fault.isSome) = false := by
    rw [Replay.isAnswerable_of_mem hmem]
    rfl
  have hget : (r.replay count).trace.get? (r.replay count).position =
      some (query.decision value) := hrecorded
  simp only [Replay.answer, hskip, Bool.false_eq_true, if_false, hget, Replay.reply_decision hmem]
  rfl

/-- The replay answers nothing where nothing is possible. -/
theorem answer_replay_of_nil {r : Recording} {count : Nat} {query : Query}
    (h : query.alternatives = []) : (r.replay count).answer query = (none, r.replay count) := by
  have hskip : (!Replay.isAnswerable query || (r.replay count).fault.isSome) = true := by
    rw [Replay.isAnswerable_eq_false h]
    rfl
  rw [Replay.answer, if_pos hskip]

/-- What a replaying strategy answers, as long as the check of the monitors finds no violation. -/
theorem answer_strategy [RandomSource γ] {r : Recording} {count : Nat} {monitors : Monitors}
    (hclean : monitors.violation = none)
    (hchecked : (monitors.checkedFor r.isWatched r.isFair).violation = none) (current : Operation)
    {query : Query} {answer : Option query.Answer} {after : Nat}
    (hanswer : (r.replay count).answer query = (answer, r.replay after)) :
    (r.strategy count : Strategy γ).answer current query monitors =
      (answer, r.strategy after, monitors.checkedFor r.isWatched r.isFair) := by
  have hplain : (Strategy.replay (r.replay count) : Strategy γ).isPlain = true := rfl
  have hwatch := Strategy.answer_watch hplain r.isWatched current query hclean
  have hfair : (Strategy.replay (r.replay count) : Strategy γ).isFair = r.isFair := rfl
  rw [hfair, hchecked, Option.isSome_none, if_neg Bool.false_ne_true, Strategy.answer, hanswer]
    at hwatch
  exact hwatch

end Recording

/-! ### Checks of the monitors -/

namespace Monitors

/-- Checking the temperatures does not depend on how often this was done before. -/
theorem checkTemperature_checks (checks : Nat) (monitors : Monitors) :
    { monitors with checks }.checkTemperature =
      { monitors.checkTemperature with checks := checks + 1 } := by
  obtain ⟨list, threshold, violation, before⟩ := monitors
  cases violation <;> rfl

/-- Checking at the bound does not depend on how often the temperatures were checked. -/
theorem checkAtBound_checks (checks : Nat) (monitors : Monitors) :
    { monitors with checks }.checkAtBound = { monitors.checkAtBound with checks } := by
  obtain ⟨list, threshold, violation, before⟩ := monitors
  cases violation <;> rfl

/-- A query does not depend on how often the temperatures were checked. -/
theorem exists_checkedFor_checks (isWatched isFair : Bool) (checks : Nat) (monitors : Monitors) :
    ∃ counted, { monitors with checks }.checkedFor isWatched isFair =
      { monitors.checkedFor isWatched isFair with checks := counted } := by
  unfold checkedFor
  split
  · exact ⟨_, checkTemperature_checks checks monitors⟩
  · exact ⟨checks, rfl⟩

end Monitors

/-! ### Endings under another strategy -/

namespace Iteration

variable {strategy : Strategy γ} (coverage : Coverage) (checks : Nat) (it : Iteration γ)

/-- An iteration is ended alike. -/
theorem stop_under (strategy : Strategy γ) (outcome : Outcome) :
    (it.under strategy coverage checks).stop outcome =
      (it.stop outcome).under strategy coverage checks := by
  unfold stop
  change (if it.isRunning then _ else _) = _
  split <;> rfl

/-- A bug is reported alike under a strategy that does not mind bugs. -/
theorem reportBug_under (hstrategy : strategy.notifyBug = strategy) (kind : BugKind)
    (message : String) :
    (it.under strategy coverage checks).reportBug kind message =
      (it.reportBug kind message).under strategy coverage checks := by
  unfold reportBug
  change (if it.isRunning then _ else _) = _
  split
  · simp only [under, hstrategy]
  · rfl

/-- An iteration without a choice is ended alike. -/
theorem endWithoutChoice_under (hstrategy : strategy.notifyBug = strategy) :
    (it.under strategy coverage checks).endWithoutChoice =
      it.endWithoutChoice.under strategy coverage checks := by
  unfold endWithoutChoice
  change (if it.operations.any (·.status.isBlocked) then _ else _) = _
  split
  · exact reportBug_under coverage checks it hstrategy _ _
  · exact stop_under coverage checks it strategy _

/-- An iteration is ended alike at the bound, if the strategies are equally fair and stand after as
many steps. -/
theorem endAtBound_under (hstrategy : strategy.notifyBug = strategy)
    (hfair : strategy.isFair = it.strategy.isFair) (hsteps : strategy.steps = it.strategy.steps) :
    (it.under strategy coverage checks).endAtBound =
      it.endAtBound.under strategy coverage checks := by
  have hclose (violation : Option LivenessViolation) (it : Iteration γ)
      (hsteps : strategy.steps = it.strategy.steps) :
      (it.under strategy coverage checks).closeAtBound violation =
        (it.closeAtBound violation).under strategy coverage checks := by
    cases violation with
    | some violation => exact reportBug_under coverage checks it hstrategy _ _
    | none =>
      have hsteps' : (it.under strategy coverage checks).strategy.steps = it.strategy.steps :=
        hsteps
      simp only [closeAtBound, hsteps']
      change (if it.depthBoundIsBug then _ else _) = _
      split
      · exact reportBug_under coverage checks it hstrategy _ _
      · exact stop_under coverage checks it strategy _
  have hfair' : (it.under strategy coverage checks).strategy.isFair = it.strategy.isFair := hfair
  have hmonitors : (it.under strategy coverage checks).monitorsAtBound =
      { it.monitorsAtBound with checks } := by
    unfold monitorsAtBound
    rw [hfair']
    split
    · exact Monitors.checkAtBound_checks checks it.monitors
    · rfl
  rw [endAtBound_eq, endAtBound_eq, hfair', hmonitors]
  exact hclose _ { it with monitors := it.monitorsAtBound } hsteps

end Iteration

end ScheduleExplorer
