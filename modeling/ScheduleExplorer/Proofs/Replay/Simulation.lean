import ScheduleExplorer.Proofs.Random.Lawful
import ScheduleExplorer.Proofs.Replay.Bounds
import ScheduleExplorer.Proofs.Strategy.Compositions

/-!
# A replay ends as its recording

An iteration under any composition of strategies leaves a trace. A replay of this trace ends with the
same trace, outcome, message and number of steps, and no fault, if its own step bound stops it exactly
where the recorded iteration was stopped by one: the length of the trace if the recorded iteration
ended at its step bound, and no bound at all otherwise.
-/

namespace ScheduleExplorer

variable {γ σ μ : Type}

/-- Whether a turn looks at the step bound and finds it reached. -/
def Turn.meetsBound (turn : Turn γ σ μ) : Bool :=
  turn.looksAtBound && turn.execution.iteration.strategy.atBound

variable [RandomSource γ]

/-- Passing the turn on ends an iteration at the step bound, unless every operation is completed. -/
theorem Iteration.scheduleNext_eq_endAtBound {it : Iteration γ} (hrunning : it.isRunning = true)
    (hleft : it.enableWaiting.operations.all (·.status.isCompleted) = false)
    (hbound : it.strategy.atBound = true) :
    it.scheduleNext = (.ok none, it.enableWaiting.endAtBound) := by
  have hscheduled := it.scheduled
  generalize it.scheduleNext = result at hscheduled ⊢
  cases hscheduled with
  | ended h => cases h.symm.trans hrunning
  | empty h =>
    simp only [enableWaiting, h] at hleft
    cases hleft
  | completed h => cases h.symm.trans hleft
  | atBound => rfl
  | consulted hnot => cases hnot.symm.trans hbound

/-- Asking for a value ends an iteration at the step bound. -/
theorem Iteration.choose_eq_endAtBound {query : Query} {it : Iteration γ}
    (hrunning : it.isRunning = true) (hbound : it.strategy.atBound = true) :
    it.choose query = (.ok none, it.endAtBound) := by
  rw [choose, hrunning, hbound]
  rfl

/-- A turn that finds the step bound reached ends the iteration and takes no decision. -/
theorem Turn.settle_of_meetsBound {turn : Turn γ σ μ} (h : turn.meetsBound = true)
    (hrunning : turn.execution.iteration.isRunning = true) :
    turn.settle.iteration.isRunning = false ∧
      turn.settle.iteration.trace = turn.execution.iteration.trace := by
  rw [meetsBound, Bool.and_eq_true] at h
  obtain ⟨hlooks, hbound⟩ := h
  have hended {it : Iteration γ} (hgoesOn : it.isRunning = true) :
      it.endAtBound.isRunning = false ∧ it.endAtBound.trace = it.trace := by
    refine ⟨?_, it.trace_endAtBound⟩
    rw [Iteration.isRunning]
    rcases Iteration.phase_endAtBound hgoesOn with hphase | hphase | hphase <;> rw [hphase] <;> rfl
  cases turn with
  | point ex =>
    have hleft : ex.iteration.enableWaiting.operations.all (·.status.isCompleted) = false := by
      simpa only [looksAtBound, Bool.not_eq_true'] using hlooks
    have hnext : ex.iteration.scheduleNext = (.ok none, ex.iteration.enableWaiting.endAtBound) :=
      Iteration.scheduleNext_eq_endAtBound hrunning hleft hbound
    have hwaiting : ex.iteration.enableWaiting.isRunning = true := hrunning
    rw [settle, Execution.reschedule, hnext]
    exact hended hwaiting
  | choice id next query wrap ex =>
    have hchoose : ex.iteration.choose query = (.ok none, ex.iteration.endAtBound) :=
      Iteration.choose_eq_endAtBound hrunning hbound
    rw [settle, Execution.choose, hchoose]
    exact hended hrunning
  | _ => cases hlooks

namespace Execution

variable {program : Program σ μ} {ex : Execution γ σ μ} {fuel : Nat}

/-- A run of at most `fuel` steps is ended by the step bound of its strategy. -/
def EndsAtBound (program : Program σ μ) (fuel : Nat) (ex : Execution γ σ μ) : Prop :=
  ∃ steps < fuel, ∃ turn ∈ (ex.run program steps).turn? program, turn.meetsBound = true

instance (program : Program σ μ) (fuel : Nat) (ex : Execution γ σ μ) :
    Decidable (ex.EndsAtBound program fuel) :=
  inferInstanceAs (Decidable (∃ steps < fuel, _))

/-- A turn that finds the step bound reached is the last one of a run, and takes no decision. -/
theorem run_of_meetsBound {steps : Nat} {turn : Turn γ σ μ}
    (hturn : (ex.run program steps).turn? program = some turn) (hmeets : turn.meetsBound = true) :
    (ex.run program (steps + 1)).iteration.isRunning = false ∧
      (ex.run program (steps + 1)).iteration.trace = (ex.run program steps).iteration.trace := by
  obtain ⟨hrunning, hof⟩ := isOf_turn hturn
  have hsame := hof.sameRun
  have hstep : (ex.run program steps).step program = some turn.settle := by
    rw [step_eq_settle, hturn, Option.map_some]
  have hlast : ex.run program (steps + 1) = turn.settle := by
    rw [run_add, run_succ hstep, run]
  rw [hlast, ← hsame.trace]
  exact Turn.settle_of_meetsBound hmeets (hsame.isRunning.trans hrunning)

/-- No turn is taken after the end of the iteration. -/
theorem le_of_turn {steps other : Nat} {turn : Turn γ σ μ}
    (hended : (ex.run program (steps + 1)).iteration.isRunning = false)
    (hturn : (ex.run program other).turn? program = some turn) : other ≤ steps := by
  by_contra hlater
  obtain ⟨hrunning, -⟩ := isOf_turn hturn
  rw [run_eq_run hended (by omega)] at hrunning
  cases hended.symm.trans hrunning

end Execution

namespace Recording

variable [LawfulRandomSource γ] {r : Recording} {program : Program σ μ} {ex : Execution γ σ μ}
  {origin : Iteration γ}

/-- A replay whose bound is the length of the trace of a run that was ended by its step bound, and
that has no bound otherwise, agrees with the run wherever it looks at the bound. -/
theorem agreesAt_of_endsAtBound (hsettled : ex.Settled) (hsound : ex.iteration.Sound origin)
    {fuel : Nat} (hbound : r.bound = if ex.EndsAtBound program fuel then
      (ex.run program fuel).iteration.trace.size else 0) :
    ∀ steps < fuel, r.AgreesAt program (ex.run program steps) := by
  intro steps hlt turn hturn hlooks
  obtain ⟨hrunning, hof⟩ := Execution.isOf_turn hturn
  have hsame := hof.sameRun
  have hsoundAt : (ex.run program steps).iteration.Sound origin :=
    Execution.sound_run hsettled hsound steps
  have htracked := hsoundAt.tracked_of_running hrunning
  have hmeets : turn.meetsBound = (ex.run program steps).iteration.strategy.atBound := by
    rw [Turn.meetsBound, hlooks, Bool.true_and, hsame.strategy]
  cases hat : (ex.run program steps).iteration.strategy.atBound with
  | true =>
    obtain ⟨hended, htrace⟩ := Execution.run_of_meetsBound hturn (hmeets.trans hat)
    have hlast : (ex.run program fuel).iteration.trace = (ex.run program steps).iteration.trace := by
      rw [Execution.run_eq_run hended (by omega), htrace]
    have hends : ex.EndsAtBound program fuel := ⟨steps, hlt, turn, hturn, hmeets.trans hat⟩
    obtain ⟨hpos, hle, -⟩ := Strategy.bound_le_steps htracked.wellFormed hat
    rw [if_pos hends, hlast, ← htracked.steps] at hbound
    rw [hbound, eq_comm, boundReached]
    simp
    omega
  | false =>
    by_cases hends : ex.EndsAtBound program fuel
    · rw [if_pos hends] at hbound
      obtain ⟨last, -, final, hfinal, hfinalMeets⟩ := hends
      have hquery := Turn.isQuery_of_looksAtBound hlooks
      -- The last turn comes after this one, so this one has not ended the iteration.
      have hle := Execution.le_of_turn (Execution.run_of_meetsBound hfinal hfinalMeets).1 hturn
      have hmore := (ended_or_lt_of_isQuery hlt hturn hquery hat).resolve_left fun hended => by
        have hback := Execution.le_of_turn hended.isRunning hfinal
        obtain rfl : steps = last := by omega
        obtain rfl : turn = final := Option.some.inj (hturn.symm.trans hfinal)
        rw [hmeets, hat] at hfinalMeets
        cases hfinalMeets
      rw [hbound, eq_comm, boundReached, htracked.steps]
      simp
      omega
    · rw [hbound, if_neg hends]
      rfl

end Recording

/-! ### Programs -/

namespace Program

variable [LawfulRandomSource γ] {program : Program σ μ} {fuel : Nat} {origin : Iteration γ}
  {result : IterationResult γ} {memory : μ}

/-- The step bound under which the trace of a program is replayed: the length of the trace if the
iteration was ended by its step bound, and otherwise none. -/
def replayBound (program : Program σ μ) (fuel : Nat) (it : Iteration γ) : Nat :=
  if (Execution.start program it).EndsAtBound program fuel then
    ((Execution.start program it).run program fuel).iteration.trace.size
  else 0

/-- The replay of what an iteration recorded ends as the iteration, if the iteration begins well and
no fault ends it. -/
theorem run_under_of_run (hnew : origin.operations = [])
    (hsound : (Execution.start program origin).iteration.Sound origin)
    (hzero : origin.strategy.steps = 0) {r : Recording} (hfits : r.Fits origin.strategy)
    (hrun : program.run fuel origin = some (result, memory)) (hfault : result.fault = none)
    (htrace : r.trace = result.trace) (hbound : r.bound = program.replayBound fuel origin)
    (coverage : Coverage) (checks : Nat) :
    ∃ replayed, program.run fuel (origin.under (r.strategy 0) coverage checks) =
        some (replayed, memory) ∧
      replayed.fault = none ∧ replayed.trace = result.trace ∧ replayed.outcome = result.outcome ∧
      replayed.message = result.message ∧ replayed.scheduledSteps = result.scheduledSteps := by
  obtain ⟨hover, rfl, rfl⟩ := run_eq_some.mp hrun
  have hsettled := Execution.settled_start program hnew
  have hgoesOn : ((Execution.start program origin).run program fuel).iteration.phase ≠ .aborted := by
    intro haborted
    have hnone : ((Execution.start program origin).run program fuel).iteration.fault = none := hfault
    have hfaulty := (Execution.sound_run hsettled hsound fuel).fault haborted
    rw [hnone] at hfaulty
    cases hfaulty
  have hstart : r.FollowsExecution (Execution.start program origin)
      (Execution.start program (origin.under (r.strategy 0) coverage checks)) :=
    ⟨coverage, checks, by rw [Execution.start_under, ← hzero]; rfl⟩
  have hagrees := Recording.agreesAt_of_endsAtBound hsettled hsound hbound
  obtain ⟨covered, counted, htwin⟩ := hstart.run hfits hsettled hsound hagrees hgoesOn
    (htrace ▸ List.prefix_refl _)
  refine ⟨_, run_eq_some.mpr ⟨?_, rfl, ?_⟩, ?_⟩
  all_goals rw [htwin]
  · exact hover
  · rfl
  · exact ⟨hfault, rfl, rfl, rfl, r.steps_strategy _⟩

/-- Let a program run to its end under a composition of strategies that may watch the monitors at the
outside, and let no fault end it. Then its trace, replayed from the same monitors with the bound for
it, leads to the same end: the same trace, outcome, message and number of steps, and no fault. -/
theorem run_replay_of_run {s : Strategy γ} (hs : s.Composed) (isWatched : Bool)
    {monitors : Monitors} (hclean : monitors.violation = none) (coverage seen : Coverage)
    (checks : Nat) (depthBoundIsBug : Bool)
    (horigin : origin = { strategy := .watch isWatched s, monitors, coverage, depthBoundIsBug })
    (hrun : program.run fuel origin = some (result, memory)) (hfault : result.fault = none) :
    ∃ replayed : IterationResult γ, program.run fuel {
        strategy := .watch isWatched (.replay {
          trace := result.trace
          maxSteps := program.replayBound fuel origin
          isFair := s.isFair })
        monitors := { monitors with checks }
        coverage := seen
        depthBoundIsBug } = some (replayed, memory) ∧
      replayed.fault = none ∧ replayed.trace = result.trace ∧ replayed.outcome = result.outcome ∧
      replayed.message = result.message ∧ replayed.scheduledSteps = result.scheduledSteps := by
  obtain ⟨hwellFormed, hsteps, hplain⟩ := hs.atStart
  obtain ⟨houtermost, hdecorated⟩ := Strategy.isOutermost_watch isWatched hplain
  subst horigin
  have hzero := (Strategy.steps_watch isWatched s).trans hsteps
  have htracked : (Execution.start program
      { strategy := .watch isWatched s, monitors, coverage, depthBoundIsBug }).iteration.Tracked
      { strategy := .watch isWatched s, monitors, coverage, depthBoundIsBug } :=
    ⟨(Strategy.wellFormed_watch _ _).mpr hwellFormed, houtermost, .refl _, rfl, .refl _, hzero,
      fun _ _ => Nat.zero_le _⟩
  let r : Recording := {
    trace := result.trace
    bound := program.replayBound fuel
      { strategy := .watch isWatched s, monitors, coverage, depthBoundIsBug }
    isFair := s.isFair
    isWatched }
  have hfits : r.Fits (.watch isWatched s) := ⟨(Strategy.isFair_watch _ _).symm, hdecorated.symm⟩
  exact run_under_of_run rfl (htracked.sound rfl hclean) hzero hfits hrun hfault rfl rfl seen checks

/-- The main operation yields again and again. -/
def yielding : Program Unit Unit where
  main := ()
  memory := ()
  resume _ _ _ memory := (.call .yield (), memory)

/-- Two searches of one step each, one after the other. -/
def oneByOne : Strategy ChaChaSource :=
  .combo (.depthFirst { maxSteps := 1 }) (.depthFirst { maxSteps := 1 })

/-- The program yields until both searches are at their bounds, and the replay ends as the run did. -/
theorem run_replay_of_run_yielding :
    oneByOne.Composed ∧ ∃ (origin : Iteration ChaChaSource) (result : IterationResult ChaChaSource),
      origin = { strategy := .watch true oneByOne } ∧
      yielding.run 9 origin = some (result, ()) ∧ result.fault = none ∧
      ∃ replayed : IterationResult ChaChaSource, yielding.run 9 {
          strategy := .watch true (.replay {
            trace := result.trace
            maxSteps := yielding.replayBound 9 origin
            isFair := oneByOne.isFair }) } = some (replayed, ()) ∧
        replayed.fault = none ∧ replayed.trace = result.trace ∧
        replayed.outcome = result.outcome ∧ replayed.message = result.message ∧
        replayed.scheduledSteps = result.scheduledSteps := by
  have hcomposed : oneByOne.Composed := .combo (.depthFirst 1) (.depthFirst 1)
  exact ⟨hcomposed, _, _, rfl, rfl, rfl,
    run_replay_of_run hcomposed true rfl {} {} 0 false rfl rfl rfl⟩

/-- The replay of two steps that a step bound has ended is bounded by two steps. -/
example : yielding.replayBound 9 { strategy := .watch true oneByOne } = 2 := by
  decide +kernel

end Program

end ScheduleExplorer
