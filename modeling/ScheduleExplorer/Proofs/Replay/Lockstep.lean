import ScheduleExplorer.Proofs.Execution.Endings
import ScheduleExplorer.Proofs.Execution.Runs
import ScheduleExplorer.Proofs.Replay.Recording

/-!
# Replays in lockstep

A replay of a trace is compared with the iteration that left the trace. The replay goes on as the
iteration does if it is the iteration, put under the replay that stands after as many decisions
(`Recording.Follows`). Every turn keeps this as long as the two agree, where a query looks at the
step bound, on whether it is reached: the recorded decision answers the query, and where the
strategy had nothing to answer nothing is possible.

No bound is fixed here, and nothing is asked of how the iteration ends, except that no fault ends it.
-/

namespace ScheduleExplorer

variable {γ σ μ : Type}

namespace Recording

/-- A recording is fit to replay what a strategy of some kind recorded. -/
structure Fits (r : Recording) (s : Strategy γ) : Prop where
  isFair : r.isFair = s.isFair
  isWatched : r.isWatched = s.isDecorated

/-- An iteration goes on as another one does, under a replay that stands after as many decisions. -/
def Follows (r : Recording) (it twin : Iteration γ) : Prop :=
  ∃ coverage checks, twin = it.under (r.strategy it.strategy.steps) coverage checks

/-- A replay follows an iteration if it stands after as many decisions. -/
theorem follows_under (r : Recording) {it : Iteration γ} {count : Nat}
    (h : it.strategy.steps = count) (coverage : Coverage) (checks : Nat) :
    r.Follows it (it.under (r.strategy count) coverage checks) := by
  subst h
  exact ⟨coverage, checks, rfl⟩

/-- A strategy that is left where it stands has taken as many decisions. -/
theorem steps_of_keeps {before after : Strategy γ} (h : before.Keeps after) :
    after.steps = before.steps :=
  congrArg Clock.steps h.clock

/-- A replay follows an ending that leaves the strategy where it stands. -/
theorem follows_of_sameTable (r : Recording) {it after : Iteration γ} (h : it.SameTable after)
    (coverage : Coverage) (checks : Nat) :
    r.Follows after (after.under (r.strategy it.strategy.steps) coverage checks) :=
  follows_under r (steps_of_keeps h.strategy) coverage checks

section Endings

variable (r : Recording) (coverage : Coverage) (checks : Nat) (it : Iteration γ)

/-- A replay is stopped where the iteration is. -/
theorem follows_stop (outcome : Outcome) : r.Follows (it.stop outcome)
    ((it.under (r.strategy it.strategy.steps) coverage checks).stop outcome) :=
  Iteration.stop_under coverage checks it _ outcome ▸
    follows_of_sameTable r (Iteration.sameTable_stop outcome it) coverage checks

/-- A replay reports the bug that the iteration reports. -/
theorem follows_reportBug (kind : BugKind) (message : String) : r.Follows (it.reportBug kind message)
    ((it.under (r.strategy it.strategy.steps) coverage checks).reportBug kind message) :=
  Iteration.reportBug_under coverage checks it (r.notifyBug_strategy _) kind message ▸
    follows_of_sameTable r (Iteration.sameTable_reportBug kind message it) coverage checks

/-- A replay ends as the iteration does where nothing is enabled. -/
theorem follows_endWithoutChoice : r.Follows it.endWithoutChoice
    (it.under (r.strategy it.strategy.steps) coverage checks).endWithoutChoice :=
  Iteration.endWithoutChoice_under coverage checks it (r.notifyBug_strategy _) ▸
    follows_of_sameTable r (Iteration.sameTable_endWithoutChoice it) coverage checks

/-- A replay that is as fair ends at the bound as the iteration does. -/
theorem follows_endAtBound (hfair : r.isFair = it.strategy.isFair) : r.Follows it.endAtBound
    (it.under (r.strategy it.strategy.steps) coverage checks).endAtBound :=
  Iteration.endAtBound_under coverage checks it (r.notifyBug_strategy _)
      ((r.isFair_strategy _).trans hfair) (r.steps_strategy _) ▸
    follows_of_sameTable r (Iteration.sameTable_endAtBound it) coverage checks

end Endings

/-- The decision after a trace is the next one of every trace that goes on with it. -/
theorem get?_of_prefix {r : Recording} {trace : Trace} {decision : Decision}
    (h : (trace.push decision).toList <+: r.trace.toList) :
    r.trace.get? trace.size = some decision := by
  obtain ⟨rest, hrest⟩ := h
  rw [Trace.get?, ← Array.getElem?_toList]
  change r.trace.toList[trace.toList.length]? = some decision
  rw [← hrest, Trace.toList_push, List.append_assoc, List.getElem?_append_right (Nat.le_refl _),
    Nat.sub_self]
  rfl

/-- An execution goes on as another one does, under a replay that stands after as many decisions. -/
def FollowsExecution (r : Recording) (ex twin : Execution γ σ μ) : Prop :=
  ∃ coverage checks, twin = ex.under (r.strategy ex.iteration.strategy.steps) coverage checks

/-- Executions of one program follow each other if their iterations do. -/
theorem Follows.execution {r : Recording} {it twin : Iteration γ} (h : r.Follows it twin)
    (ex : Execution γ σ μ) :
    r.FollowsExecution { ex with iteration := it } { ex with iteration := twin } := by
  obtain ⟨coverage, checks, rfl⟩ := h
  exact ⟨coverage, checks, rfl⟩

/-- A replay agrees on whether the step bound is reached, in case the next turn looks at it. -/
def AgreesAt (r : Recording) (program : Program σ μ) (ex : Execution γ σ μ) : Prop :=
  ∀ turn, ex.turn? program = some turn → turn.looksAtBound = true →
    ex.iteration.strategy.atBound = boundReached ex.iteration.strategy.steps r.bound

/-! ### Queries -/

variable [RandomSource γ] [LawfulRandomSource γ]

omit [LawfulRandomSource γ] in
/-- A strategy checks the monitors as its replay does, and stays as it is if they are violated. -/
theorem Fits.checked {r : Recording} {it origin : Iteration γ} (hfits : r.Fits origin.strategy)
    (hit : it.Tracked origin) (hclean : it.monitors.violation = none) {op : Operation}
    {query : Query} {answer : Option query.Answer} {strategy : Strategy γ} {monitors : Monitors}
    (hanswer : it.strategy.answer op query it.monitors = (answer, strategy, monitors)) :
    monitors = it.monitors.checkedFor r.isWatched r.isFair ∧
      (monitors.violation.isSome = true → strategy = it.strategy) := by
  have hfair : it.strategy.isFair = r.isFair := hit.sameKind.isFair.trans hfits.isFair.symm
  have hwatched : it.strategy.isDecorated = r.isWatched :=
    hit.sameKind.isDecorated.trans hfits.isWatched.symm
  obtain ⟨hchecked, hhalted⟩ := hit.outermost.answer_spec op query hclean
  rw [hanswer, hfair, hwatched] at hchecked hhalted
  obtain rfl : monitors = _ := hchecked
  exact ⟨rfl, fun hviolation => congrArg (·.2.1) (hhalted hviolation)⟩

omit [RandomSource γ] [LawfulRandomSource γ] in
/-- A replay answers as the strategy did: nothing where nothing is possible, and otherwise the recorded
decision. -/
theorem answer_replay_of_answered {r : Recording} {query : Query} {answer : Option query.Answer}
    {before strategy : Strategy γ} {monitors : Monitors} {count : Nat}
    (h : Strategy.Answered query before answer strategy monitors)
    (hviolation : monitors.violation = none) (hfault : strategy.takeFault.1 = none)
    (hrecorded : ∀ value, answer = some value → r.trace.get? count = some (query.decision value)) :
    (r.replay count).answer query = (answer, r.replay (count + answer.isSome.toNat)) := by
  cases answer with
  | none =>
    refine answer_replay_of_nil ?_
    rcases h.none rfl with hnil | hfaulty | hviolated
    · exact hnil
    · rw [hfault] at hfaulty
      cases hfaulty
    · rw [hviolation] at hviolated
      cases hviolated
  | some value => exact answer_replay (h.mem value rfl) (hrecorded value rfl)

/-- A replay is answered as the strategy was, if the answer is the recorded decision. -/
theorem Follows.consulted {r : Recording} {it twin origin : Iteration γ} (h : r.Follows it twin)
    (hfits : r.Fits origin.strategy) (hit : it.Tracked origin)
    (hclean : it.monitors.violation = none) {query : Query}
    (hquery : ∀ op, it.operation? it.current = some op → query.IsAskedBy op)
    {answer : Option (Option query.Answer)} {after : Iteration γ}
    (hconsulted : it.Consulted query (.ok answer, after))
    (hrecorded : ∀ value, answer = some (some value) →
      r.trace.get? it.strategy.steps = some (query.decision value)) :
    ∃ twinAfter, twin.Consulted query (.ok answer, twinAfter) ∧ r.Follows after twinAfter := by
  obtain ⟨coverage, checks, rfl⟩ := h
  obtain ⟨counted, hcounted⟩ :=
    it.monitors.exists_checkedFor_checks r.isWatched r.isFair checks
  have hclean' : ({ it.monitors with checks } : Monitors).violation = none := hclean
  cases hconsulted with
  | @violated op answer strategy monitors violation hop hanswer hviolation =>
    obtain ⟨rfl, hstays⟩ := hfits.checked hit hclean hanswer
    obtain rfl := hstays (by rw [hviolation]; rfl)
    obtain ⟨houtermost, hdecorated⟩ := r.isOutermost_strategy (γ := γ) it.strategy.steps
    obtain ⟨-, htwin⟩ := houtermost.answer_spec op query hclean'
    rw [hdecorated, isFair_strategy, hcounted] at htwin
    refine ⟨_, .violated hop (htwin (congrArg Option.isSome hviolation)) hviolation, ?_⟩
    exact follows_reportBug r coverage counted
      { it with monitors := it.monitors.checkedFor r.isWatched r.isFair } .liveness violation.message
  | @answered op answer strategy taken monitors hop hanswer hviolation hfault =>
    obtain ⟨rfl, -⟩ := hfits.checked hit hclean hanswer
    have hanswered := Strategy.answered (hquery op hop) hit.wellFormed it.monitors
    rw [hanswer] at hanswered
    have htaken := strategy.keeps_takeFault
    rw [hfault] at htaken
    have hsteps : taken.steps = it.strategy.steps + answer.isSome.toNat :=
      (steps_of_keeps htaken).trans (congrArg Clock.steps hanswered.clock)
    have hreplay := answer_replay_of_answered hanswered hviolation (congrArg Prod.fst hfault)
      fun value hvalue => hrecorded value (congrArg some hvalue)
    have hunviolated : (({ it.monitors with checks } : Monitors).checkedFor r.isWatched
        r.isFair).violation = none := by
      rw [hcounted]
      exact hviolation
    have htwin := answer_strategy (γ := γ) hclean' hunviolated op hreplay
    rw [hcounted] at htwin
    refine ⟨_, .answered hop htwin hviolation (r.takeFault_strategy _), ?_⟩
    exact follows_under r hsteps coverage counted

/-- A turn that is given out, or withheld without a fault, is so for the replay too. -/
theorem Follows.scheduleNext {r : Recording} {it twin origin : Iteration γ} (h : r.Follows it twin)
    (hfits : r.Fits origin.strategy) (hit : it.Tracked origin)
    (hclean : it.monitors.violation = none) (hnumbered : it.IsNumbered)
    (hbound : it.enableWaiting.operations.all (·.status.isCompleted) = false →
      it.strategy.atBound = boundReached it.strategy.steps r.bound)
    {next : Option OperationId} {after : Iteration γ}
    (hnext : it.scheduleNext = (.ok next, after))
    (hrecorded : after.trace.toList <+: r.trace.toList) :
    ∃ twinAfter, twin.scheduleNext = (.ok next, twinAfter) ∧ r.Follows after twinAfter := by
  suffices hsuffices : ∃ twinAfter, twin.Scheduled (.ok next, twinAfter) ∧
      r.Follows after twinAfter by
    obtain ⟨twinAfter, hscheduled, hfollows⟩ := hsuffices
    exact ⟨twinAfter, hscheduled.eq, hfollows⟩
  have hscheduled := it.scheduled
  rw [hnext] at hscheduled
  obtain ⟨coverage, checks, rfl⟩ := h
  have hfair : r.isFair = it.strategy.isFair := hfits.isFair.trans hit.sameKind.isFair.symm
  have htwinBound (hleft : it.enableWaiting.operations.all (·.status.isCompleted) = false) :
      (it.under (r.strategy it.strategy.steps) coverage checks).strategy.atBound =
        it.strategy.atBound := (r.atBound_strategy _).trans (hbound hleft).symm
  cases hscheduled with
  | ended h => exact ⟨_, .ended h, coverage, checks, rfl⟩
  | completed h hopen =>
    exact ⟨_, .completed h hopen, follows_stop r coverage checks it.enableWaiting .completed⟩
  | atBound h hopen hleft =>
    exact ⟨_, .atBound ((htwinBound hleft).trans h) hopen hleft,
      follows_endAtBound r coverage checks it.enableWaiting hfair⟩
  | consulted hnot hanswer hresult hopen hleft =>
    have hstart : r.Follows it.enableWaiting
        (it.under (r.strategy it.strategy.steps) coverage checks).enableWaiting :=
      ⟨coverage, checks, rfl⟩
    have hasked (op : Operation)
        (hop : it.enableWaiting.operation? it.enableWaiting.current = some op) :=
      hnumbered.enableWaiting.isAskedBy hop
    have hconsulted {answer : Option (Option OperationId)} {between : Iteration γ}
        (hanswer : it.enableWaiting.Consulted (.operation it.enableWaiting.operations)
          (.ok answer, between)) :=
      hstart.consulted hfits hit.enableWaiting hclean hasked hanswer
    cases hresult with
    | violated =>
      obtain ⟨twinAfter, htwin, hfollows⟩ := hconsulted hanswer fun value h => by cases h
      exact ⟨_, .consulted ((htwinBound hleft).trans hnot) htwin .violated hopen hleft, hfollows⟩
    | @unanswered between =>
      obtain ⟨twinAfter, htwin, covered, counted, rfl⟩ := hconsulted hanswer fun value h => by cases h
      exact ⟨_, .consulted ((htwinBound hleft).trans hnot) htwin .unanswered hopen hleft,
        follows_endWithoutChoice r covered counted between⟩
    | @scheduled next op between hop henabled =>
      have hsame : between.trace = it.trace := hanswer.trace
      have hdecided : r.trace.get? it.strategy.steps = some (.operation next) := by
        rw [hit.steps, ← hsame]
        exact get?_of_prefix hrecorded
      obtain ⟨twinAfter, htwin, covered, counted, rfl⟩ := hconsulted hanswer fun value h => by
        obtain rfl := Option.some.inj (Option.some.inj h)
        exact hdecided
      refine ⟨_, .consulted ((htwinBound hleft).trans hnot) htwin (.scheduled hop henabled) hopen
        hleft, ?_⟩
      exact ⟨covered, counted, rfl⟩

/-- A value that is given out, or withheld without a fault, is so for the replay too. -/
theorem Follows.choose {r : Recording} {it twin origin : Iteration γ} (h : r.Follows it twin)
    (hfits : r.Fits origin.strategy) (hit : it.Tracked origin)
    (hclean : it.monitors.violation = none) {query : Query}
    (hquery : ∀ op, query.IsAskedBy op)
    (hbound : it.strategy.atBound = boundReached it.strategy.steps r.bound)
    {value : Option query.Answer} {after : Iteration γ}
    (hchoose : it.choose query = (.ok value, after))
    (hrecorded : after.trace.toList <+: r.trace.toList) :
    ∃ twinAfter, twin.choose query = (.ok value, twinAfter) ∧ r.Follows after twinAfter := by
  suffices hsuffices : ∃ twinAfter, twin.Chosen query (.ok value, twinAfter) ∧
      r.Follows after twinAfter by
    obtain ⟨twinAfter, hchosen, hfollows⟩ := hsuffices
    exact ⟨twinAfter, hchosen.eq, hfollows⟩
  have hchosen := it.chosen query
  rw [hchoose] at hchosen
  have hconsulted {answer : Option (Option query.Answer)} {between : Iteration γ}
      (hanswer : it.Consulted query (.ok answer, between)) :=
    h.consulted hfits hit hclean (fun op _ => hquery op) hanswer
  obtain ⟨coverage, checks, rfl⟩ := h
  have hfair : r.isFair = it.strategy.isFair := hfits.isFair.trans hit.sameKind.isFair.symm
  have htwinBound : (it.under (r.strategy it.strategy.steps) coverage checks).strategy.atBound =
      it.strategy.atBound := (r.atBound_strategy _).trans hbound.symm
  cases hchosen with
  | ended h => exact ⟨_, .ended h, coverage, checks, rfl⟩
  | atBound h hrunning =>
    exact ⟨_, .atBound (htwinBound.trans h) hrunning, follows_endAtBound r coverage checks it hfair⟩
  | violated hnot hrunning hanswer =>
    obtain ⟨twinAfter, htwin, hfollows⟩ := hconsulted hanswer fun value h => by cases h
    exact ⟨_, .violated (htwinBound.trans hnot) hrunning htwin, hfollows⟩
  | @given hnot hrunning value between hanswer =>
    have hsame : between.trace = it.trace := hanswer.trace
    have hdecided : r.trace.get? it.strategy.steps = some (query.decision value) := by
      rw [hit.steps, ← hsame]
      exact get?_of_prefix hrecorded
    obtain ⟨twinAfter, htwin, covered, counted, rfl⟩ := hconsulted hanswer fun value h => by
      obtain rfl := Option.some.inj (Option.some.inj h)
      exact hdecided
    refine ⟨_, .given (htwinBound.trans hnot) hrunning htwin, ?_⟩
    exact ⟨covered, counted, rfl⟩

/-! ### Executions -/

/-- Whatever a turn asks for, the replay is given the same. -/
theorem follows_settle {r : Recording} {turn : Turn γ σ μ} {origin : Iteration γ}
    (hfits : r.Fits origin.strategy) (hsettled : turn.Settled)
    (htracked : turn.execution.iteration.Tracked origin)
    (hclean : turn.execution.iteration.monitors.violation = none)
    (hbound : turn.looksAtBound = true → turn.execution.iteration.strategy.atBound =
      boundReached turn.execution.iteration.strategy.steps r.bound)
    (hgoesOn : turn.settle.iteration.phase ≠ .aborted)
    (hrecorded : turn.settle.iteration.trace.toList <+: r.trace.toList)
    (coverage : Coverage) (checks : Nat) :
    r.FollowsExecution turn.settle
      (turn.under (r.strategy turn.execution.iteration.strategy.steps) coverage checks).settle := by
  cases turn with
  | quiet ex => exact ⟨coverage, checks, rfl⟩
  | fault cause ex => exact absurd rfl hgoesOn
  | bug kind message ex =>
    exact (follows_reportBug r coverage checks ex.iteration kind message).execution ex
  | point ex =>
    have hstart : r.Follows ex.iteration
        (ex.under (r.strategy ex.iteration.strategy.steps) coverage checks).iteration :=
      ⟨coverage, checks, rfl⟩
    change r.FollowsExecution ex.reschedule
      (ex.under (r.strategy ex.iteration.strategy.steps) coverage checks).reschedule
    change ex.reschedule.iteration.phase ≠ .aborted at hgoesOn
    change ex.reschedule.iteration.trace.toList <+: _ at hrecorded
    unfold Execution.reschedule at hgoesOn hrecorded ⊢
    generalize hnext : ex.iteration.scheduleNext = result at hgoesOn hrecorded ⊢
    obtain ⟨next, after⟩ := result
    cases next with
    | error fault => exact absurd rfl hgoesOn
    | ok next =>
      have hagrees (hleft : ex.iteration.enableWaiting.operations.all (·.status.isCompleted) =
          false) := hbound (by rw [Turn.looksAtBound, hleft, Bool.not_false])
      obtain ⟨twinAfter, htwin, hfollows⟩ := hstart.scheduleNext hfits htracked hclean
        (Execution.Settled.isNumbered hsettled) hagrees hnext hrecorded
      rw [htwin]
      exact hfollows.execution ex
  | choice id next query wrap ex =>
    have hstart : r.Follows ex.iteration
        (ex.under (r.strategy ex.iteration.strategy.steps) coverage checks).iteration :=
      ⟨coverage, checks, rfl⟩
    change r.FollowsExecution (ex.choose id next query wrap)
      ((ex.under (r.strategy ex.iteration.strategy.steps) coverage checks).choose id next query wrap)
    change (ex.choose id next query wrap).iteration.phase ≠ .aborted at hgoesOn
    change (ex.choose id next query wrap).iteration.trace.toList <+: _ at hrecorded
    unfold Execution.choose at hgoesOn hrecorded ⊢
    generalize hchoose : ex.iteration.choose query = result at hgoesOn hrecorded ⊢
    obtain ⟨value, after⟩ := result
    cases value with
    | error fault => exact absurd rfl hgoesOn
    | ok value =>
      have hvalue : after.trace.toList <+: r.trace.toList := by
        cases value <;> exact hrecorded
      obtain ⟨twinAfter, htwin, hfollows⟩ := hstart.choose hfits htracked hclean
        hsettled.2.2.isAskedBy (hbound rfl) hchoose hvalue
      rw [htwin]
      cases value with
      | none => exact hfollows.execution ex
      | some value =>
        obtain ⟨covered, counted, rfl⟩ := hfollows
        exact ⟨covered, counted, rfl⟩

/-- A replay takes the step that is recorded. -/
theorem FollowsExecution.step {r : Recording} {program : Program σ μ}
    {ex twin after : Execution γ σ μ} {origin : Iteration γ} (h : r.FollowsExecution ex twin)
    (hfits : r.Fits origin.strategy) (hsettled : ex.Settled) (hsound : ex.iteration.Sound origin)
    (hbound : r.AgreesAt program ex) (hstep : ex.step program = some after)
    (hgoesOn : after.iteration.phase ≠ .aborted)
    (hrecorded : after.iteration.trace.toList <+: r.trace.toList) :
    ∃ twinAfter, twin.step program = some twinAfter ∧ r.FollowsExecution after twinAfter := by
  obtain ⟨coverage, checks, rfl⟩ := h
  rw [Execution.step_eq_settle, Option.map_eq_some_iff] at hstep
  obtain ⟨turn, hturn, rfl⟩ := hstep
  obtain ⟨hrunning, hof⟩ := Execution.isOf_turn hturn
  obtain ⟨covered, htwin⟩ := Execution.turn?_under (r.strategy ex.iteration.strategy.steps)
    coverage checks program ex
  rw [hturn, Option.map_some] at htwin
  refine ⟨_, by rw [Execution.step_eq_settle, htwin, Option.map_some], ?_⟩
  have hsame := hof.sameRun
  have hagrees (hlooks : turn.looksAtBound = true) : turn.execution.iteration.strategy.atBound =
      boundReached turn.execution.iteration.strategy.steps r.bound := by
    rw [hsame.strategy]
    exact hbound turn hturn hlooks
  rw [← hsame.strategy]
  exact follows_settle hfits (hsettled.turn hturn)
    (hsame.tracked (hsound.tracked_of_running hrunning))
    (hsame.violation.trans (hsound.clean hrunning)) hagrees hgoesOn hrecorded covered checks

omit [LawfulRandomSource γ] in
/-- A replay stops where nothing more is recorded. -/
theorem FollowsExecution.step_eq_none {r : Recording} {program : Program σ μ}
    {ex twin : Execution γ σ μ} (h : r.FollowsExecution ex twin)
    (hstep : ex.step program = none) : twin.step program = none := by
  obtain ⟨coverage, checks, rfl⟩ := h
  obtain ⟨covered, htwin⟩ := Execution.turn?_under (r.strategy ex.iteration.strategy.steps)
    coverage checks program ex
  rw [Execution.step_eq_settle, Option.map_eq_none_iff] at hstep ⊢
  rw [htwin, hstep, Option.map_none]

/-- A replay goes through the run that is recorded, if it agrees on the step bound on its way. -/
theorem FollowsExecution.run {r : Recording} {program : Program σ μ}
    {ex twin : Execution γ σ μ} {origin : Iteration γ} (h : r.FollowsExecution ex twin)
    (hfits : r.Fits origin.strategy) (hsettled : ex.Settled) (hsound : ex.iteration.Sound origin)
    {fuel : Nat} (hbounds : ∀ steps < fuel, r.AgreesAt program (ex.run program steps))
    (hgoesOn : (ex.run program fuel).iteration.phase ≠ .aborted)
    (hrecorded : (ex.run program fuel).iteration.trace.toList <+: r.trace.toList) :
    r.FollowsExecution (ex.run program fuel) (twin.run program fuel) := by
  induction fuel generalizing ex twin with
  | zero => exact h
  | succ fuel ih =>
    cases hstep : ex.step program with
    | none =>
      rw [Execution.run, hstep, Execution.run, h.step_eq_none hstep]
      exact h
    | some after =>
      rw [Execution.run_succ hstep] at hgoesOn hrecorded ⊢
      obtain ⟨twinAfter, htwin, hfollows⟩ := h.step hfits hsettled hsound (hbounds 0 (by omega))
        hstep (Execution.phase_ne_aborted_of_run hgoesOn)
        ((Execution.trace_run program after fuel).trans hrecorded)
      rw [Execution.run_succ htwin]
      refine ih hfollows (hsettled.step hstep) (Execution.sound_step hsettled hsound hstep) ?_ hgoesOn
        hrecorded
      intro steps hlt
      have hlater := hbounds (steps + 1) (by omega)
      rwa [Execution.run_succ hstep] at hlater

end Recording

end ScheduleExplorer
