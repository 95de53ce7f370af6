import ScheduleExplorer.Proofs.Replay.Lockstep

/-!
# Step bounds of replays

A replay under the step bound of the recorded strategy agrees with it at every query, unless the
recorded strategy is a combination: the steps of a combination go beyond the bound of its last part
before it is at its bound. Then the two still agree at every query if the recorded run stays below the
bound, and also if it takes its last decision at the bound and then fails of its own accord.
-/

namespace ScheduleExplorer

variable {γ σ μ : Type}

/-- The endings that a query can bring before the step bound is reached. -/
def Phase.IsQueryEnding (phase : Phase) : Prop :=
  phase = .aborted ∨ phase = .stopped .completed ∨ phase = .stopped (.bugFound .deadlock) ∨
    phase = .stopped (.bugFound .liveness)

/-- An iteration that a query has ended is not running. -/
theorem Phase.IsQueryEnding.isRunning {it : Iteration γ} (h : it.phase.IsQueryEnding) :
    it.isRunning = false := by
  rw [Iteration.isRunning]
  rcases h with h | h | h | h <;> rw [h] <;> rfl

variable [RandomSource γ]

namespace Iteration

/-- A consultation that gives no answer has found a violation. -/
theorem Consulted.phase {query : Query} {it after : Iteration γ}
    (h : Consulted query it (.ok none, after)) (hrunning : it.isRunning = true) :
    after.phase = .stopped (.bugFound .liveness) := by
  cases h with
  | @violated op answer strategy monitors violation hop hanswer hviolation =>
    have hrunning' : ({ it with strategy, monitors } : Iteration γ).isRunning = true := hrunning
    exact phase_reportBug hrunning' _ _

/-- A consultation that gives an answer leaves the iteration running. -/
theorem Consulted.isRunning {query : Query} {it after : Iteration γ}
    {answer : Option query.Answer} (h : Consulted query it (.ok (some answer), after))
    (hrunning : it.isRunning = true) : after.isRunning = true := by
  cases h with
  | answered => exact hrunning

/-- Before the step bound a turn is given out, which is recorded, or the iteration ends as a query
can end it. -/
theorem scheduleNext_progress {it after : Iteration γ} {next : Option OperationId}
    (hrunning : it.isRunning = true) (hbound : it.strategy.atBound = false)
    (hnext : it.scheduleNext = (.ok next, after)) :
    after.phase.IsQueryEnding ∨ ∃ decision, after.trace = it.trace.push decision := by
  have hwaiting : it.enableWaiting.isRunning = true := hrunning
  have hscheduled := it.scheduled
  rw [hnext] at hscheduled
  cases hscheduled with
  | ended h => cases h.symm.trans hrunning
  | completed h => exact .inl (.inr (.inl (phase_stop hwaiting _)))
  | atBound h => cases h.symm.trans hbound
  | consulted _ hanswer hresult =>
    cases hresult with
    | violated => exact .inl (.inr (.inr (.inr (hanswer.phase hwaiting))))
    | @unanswered between =>
      have hgoesOn : between.isRunning = true := hanswer.isRunning hwaiting
      rw [endWithoutChoice]
      split
      · exact .inl (.inr (.inr (.inl (phase_reportBug hgoesOn _ _))))
      · exact .inl (.inr (.inl (phase_stop hgoesOn _)))
    | scheduled => exact .inr ⟨_, congrArg (Trace.push _) hanswer.trace⟩

/-- Before the step bound a value is given out, which is recorded, or the iteration ends as a query
can end it. -/
theorem choose_progress {query : Query} {it after : Iteration γ} {value : Option query.Answer}
    (hrunning : it.isRunning = true) (hbound : it.strategy.atBound = false)
    (hchoose : it.choose query = (.ok value, after)) :
    after.phase.IsQueryEnding ∨ ∃ decision, after.trace = it.trace.push decision := by
  have hchosen := it.chosen query
  rw [hchoose] at hchosen
  cases hchosen with
  | ended h => cases h.symm.trans hrunning
  | atBound h => cases h.symm.trans hbound
  | violated _ _ hanswer => exact .inl (.inr (.inr (.inr (hanswer.phase hrunning))))
  | given _ _ hanswer => exact .inr ⟨_, congrArg (Trace.push _) hanswer.trace⟩

end Iteration

/-- Before the step bound a query adds a decision to the trace, or it ends the iteration as a query
can. -/
theorem Turn.settle_progress {turn : Turn γ σ μ} (hquery : turn.isQuery = true)
    (hrunning : turn.execution.iteration.isRunning = true)
    (hbound : turn.execution.iteration.strategy.atBound = false) :
    turn.settle.iteration.phase.IsQueryEnding ∨
      turn.settle.iteration.trace.size = turn.execution.iteration.trace.size + 1 := by
  have hcount {it after : Iteration γ}
      (h : after.phase.IsQueryEnding ∨ ∃ decision, after.trace = it.trace.push decision) :
      after.phase.IsQueryEnding ∨ after.trace.size = it.trace.size + 1 := by
    refine h.imp_right fun hpushed => ?_
    obtain ⟨decision, hpushed⟩ := hpushed
    rw [hpushed, Trace.size, Trace.push, Array.size_push]
    rfl
  cases turn with
  | point ex =>
    rw [Turn.settle, Execution.reschedule]
    split
    · next heq => exact hcount (Iteration.scheduleNext_progress hrunning hbound heq)
    · exact .inl (.inl rfl)
  | choice id next query wrap ex =>
    rw [Turn.settle, Execution.choose]
    split
    · next heq => exact hcount (Iteration.choose_progress hrunning hbound heq)
    · next heq => exact hcount (Iteration.choose_progress hrunning hbound heq)
    · exact .inl (.inl rfl)
  | _ => cases hquery

/-- Whether a replay under the step bound of the recorded strategy finds again a bug that was found
after a number of decisions. A strategy that is not combined keeps to its bound; a combination does
not, and at the bound the replay only goes on to failures of the program itself. -/
def IsReplayable (isCombined : Bool) (bound steps : Nat) (kind : BugKind) : Prop :=
  isCombined = false ∨ bound = 0 ∨ steps < bound ∨
    (steps = bound ∧ (kind = .assertion ∨ kind = .panic))

omit [RandomSource γ] in
/-- A bug that a strategy that is not combined finds again, under the same bound and with the same
wording, is replayable. -/
theorem Iteration.isReplayable_of_found {it twin origin twinOrigin : Iteration γ}
    (hit : it.Tracked origin) (hsound : it.Sound origin) (htwin : twin.Tracked twinOrigin)
    (htwinSound : twin.Sound twinOrigin) (halone : twin.strategy.isCombined = false)
    (hmax : twin.strategy.maxSteps = it.strategy.maxSteps) {kind : BugKind}
    (hphase : it.phase = .stopped (.bugFound kind))
    (htwinPhase : twin.phase = .stopped (.bugFound kind)) (hmessage : twin.message = it.message)
    (htrace : twin.trace = it.trace) :
    IsReplayable it.strategy.isCombined it.strategy.maxSteps it.trace.size kind := by
  cases hcombined : it.strategy.isCombined with
  | false => exact .inl rfl
  | true =>
    rcases Nat.eq_zero_or_pos it.strategy.maxSteps with hzero | hpos
    · exact .inr (.inl hzero)
    have hwithin : it.trace.size ≤ it.strategy.maxSteps := by
      rw [← htrace, ← hmax]
      exact htwin.within halone (hmax ▸ hpos)
    rcases Nat.lt_or_eq_of_le hwithin with hlt | hlast
    · exact .inr (.inr (.inl hlt))
    -- The bug came with the last decision that the replay can take.
    refine .inr (.inr (.inr ⟨hlast, ?_⟩))
    cases kind with
    | assertion => exact .inl rfl
    | panic => exact .inr rfl
    | deadlock =>
      have hearly := htwinSound.deadlock htwinPhase halone (hmax ▸ hpos)
      rw [htrace, hmax] at hearly
      omega
    | liveness =>
      obtain ⟨violation, hworded, hwhere⟩ := hsound.liveness hphase
      obtain ⟨found, hfoundWorded, hfoundWhere⟩ := htwinSound.liveness htwinPhase
      have hsame : found.message = violation.message := by
        rw [hfoundWorded, hworded] at hmessage
        exact Option.some.inj hmessage
      have hbefore : it.strategy.atBound = false := by
        rw [Bool.eq_false_iff]
        intro hat
        have hlate := (Strategy.bound_le_steps hit.wellFormed hat).2.2 hcombined
        rw [hit.steps] at hlate
        omega
      have hafter : twin.strategy.atBound = true := by
        rw [Strategy.atBound_eq_of_not_combined halone, Clock.atBound_iff]
        simp only [Strategy.clock]
        rw [htwin.steps, htrace, hmax]
        omega
      have hplace := LivenessViolation.isAtBound_eq_of_message hsame
      rw [hwhere, hfoundWhere, hbefore, hafter] at hplace
      cases hplace

namespace Recording

variable [LawfulRandomSource γ] {r : Recording} {program : Program σ μ} {ex : Execution γ σ μ}
  {origin : Iteration γ}

omit [LawfulRandomSource γ] in
/-- A query before the step bound ends the iteration as a query can, or else the run takes one more
decision. -/
theorem ended_or_lt_of_isQuery {steps fuel : Nat} (hlt : steps < fuel) {turn : Turn γ σ μ}
    (hturn : (ex.run program steps).turn? program = some turn) (hquery : turn.isQuery = true)
    (hbound : (ex.run program steps).iteration.strategy.atBound = false) :
    (ex.run program (steps + 1)).iteration.phase.IsQueryEnding ∨
      (ex.run program steps).iteration.trace.size < (ex.run program fuel).iteration.trace.size := by
  obtain ⟨hrunning, hof⟩ := Execution.isOf_turn hturn
  have hsame := hof.sameRun
  have hstep : (ex.run program steps).step program = some turn.settle := by
    rw [Execution.step_eq_settle, hturn, Option.map_some]
  have hnext : ex.run program (steps + 1) = turn.settle := by
    rw [Execution.run_add, Execution.run_succ hstep, Execution.run]
  have hprogress := turn.settle_progress hquery (hsame.isRunning.trans hrunning)
    (hsame.strategy ▸ hbound)
  rw [hsame.trace, ← hnext] at hprogress
  refine hprogress.imp_right fun hpushed => ?_
  obtain ⟨rest, rfl⟩ : ∃ rest, fuel = steps + 1 + rest := ⟨fuel - (steps + 1), by omega⟩
  have hgrows := Execution.size_trace_le_run program (ex.run program (steps + 1)) rest
  rw [← Execution.run_add] at hgrows
  omega

omit [LawfulRandomSource γ] in
/-- A failure of the program itself that comes as late as the last decision does not leave room for
a query after that decision. -/
theorem lt_of_isQuery {steps fuel : Nat} (hlt : steps < fuel) {kind : BugKind}
    (hbug : (ex.run program fuel).iteration.phase = .stopped (.bugFound kind))
    (hkind : kind = .assertion ∨ kind = .panic) {turn : Turn γ σ μ}
    (hturn : (ex.run program steps).turn? program = some turn) (hquery : turn.isQuery = true)
    (hbound : (ex.run program steps).iteration.strategy.atBound = false) :
    (ex.run program steps).iteration.trace.size < (ex.run program fuel).iteration.trace.size := by
  refine (ended_or_lt_of_isQuery hlt hturn hquery hbound).resolve_left fun hended => ?_
  rw [Execution.run_eq_run hended.isRunning hlt] at hbug
  rw [hbug] at hended
  rcases hkind with rfl | rfl <;> rcases hended with h | h | h | h <;> cases h

/-- A replay agrees with the recorded strategy on its way to a bug that is replayable. -/
theorem agreesAt_of_isReplayable (hsettled : ex.Settled) (hsound : ex.iteration.Sound origin)
    (hbound : r.bound = origin.strategy.maxSteps) {fuel : Nat} {kind : BugKind}
    (hbug : (ex.run program fuel).iteration.phase = .stopped (.bugFound kind))
    (hreplayable : IsReplayable origin.strategy.isCombined r.bound
      (ex.run program fuel).iteration.trace.size kind) :
    ∀ steps < fuel, r.AgreesAt program (ex.run program steps) := by
  intro steps hlt turn hturn hlooks
  have hquery := Turn.isQuery_of_looksAtBound hlooks
  obtain ⟨hrunning, -⟩ := Execution.isOf_turn hturn
  have hsoundAt : (ex.run program steps).iteration.Sound origin :=
    Execution.sound_run hsettled hsound steps
  have htracked := hsoundAt.tracked_of_running hrunning
  have hmax : (ex.run program steps).iteration.strategy.maxSteps = r.bound :=
    htracked.maxSteps.trans hbound.symm
  cases hcombined : (ex.run program steps).iteration.strategy.isCombined with
  | false =>
    rw [Strategy.atBound_eq_of_not_combined hcombined, ← hmax]
    rfl
  | true =>
    have hgrows : (ex.run program steps).iteration.trace.size ≤
        (ex.run program fuel).iteration.trace.size := by
      obtain ⟨rest, rfl⟩ : ∃ rest, fuel = steps + rest := ⟨fuel - steps, by omega⟩
      rw [Execution.run_add]
      exact Execution.size_trace_le_run program _ rest
    have hkept : origin.strategy.isCombined = true :=
      htracked.sameKind.isCombined.symm.trans hcombined
    -- The recorded strategy would be at its bound only beyond the steps that were taken.
    have hnot : (ex.run program steps).iteration.strategy.atBound = false := by
      rw [Bool.eq_false_iff]
      intro hat
      obtain ⟨hpos, -, hbeyond⟩ := Strategy.bound_le_steps htracked.wellFormed hat
      have hlate := hbeyond hcombined
      rw [hmax] at hpos hlate
      rw [htracked.steps] at hlate
      rcases hreplayable with h | h | h | h
      · cases h.symm.trans hkept
      · omega
      · omega
      · omega
    rw [hnot, htracked.steps, eq_comm, Bool.eq_false_iff]
    intro hat
    obtain ⟨hpos, hle⟩ : 0 < r.bound ∧ r.bound ≤ (ex.run program steps).iteration.trace.size := by
      simpa [boundReached] using hat
    rcases hreplayable with h | h | h | ⟨hlast, hkind⟩
    · cases h.symm.trans hkept
    · omega
    · omega
    · have hmore := lt_of_isQuery hlt hbug hkind hturn hquery hnot
      omega

end Recording

end ScheduleExplorer
