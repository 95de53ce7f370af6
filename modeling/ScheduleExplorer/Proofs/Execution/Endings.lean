import ScheduleExplorer.Proofs.Execution.Deadlock
import ScheduleExplorer.Proofs.Execution.Runs
import ScheduleExplorer.Proofs.Strategy.Watching

/-!
# How iterations end

The steps of the strategy of a campaign are the decisions in the trace, as long as no fault ends the
iteration. A strategy that is not combined takes no decision at its bound, and a deadlock is
reported before the bound. A liveness violation is worded by where it was found: in a check of the
temperatures before the bound, or at the bound.

`Iteration.Sound` states this of an iteration that is running or has ended; every turn keeps it.
-/

namespace ScheduleExplorer

variable {γ σ μ : Type}

namespace Iteration

/-- The strategy is one of a campaign and of the kind it was at the origin of the iteration, has
counted the decisions of the trace and kept to its bound; the monitors are those of the origin. -/
structure Tracked (it origin : Iteration γ) : Prop where
  wellFormed : it.strategy.WellFormed
  outermost : it.strategy.IsOutermost
  sameKind : it.strategy.SameKind origin.strategy
  maxSteps : it.strategy.maxSteps = origin.strategy.maxSteps
  atRest : it.monitors.SameAtRest origin.monitors
  steps : it.strategy.steps = it.trace.size
  within : it.strategy.isCombined = false → 0 < it.strategy.maxSteps →
    it.trace.size ≤ it.strategy.maxSteps

/-- What is known of an iteration of a campaign that no fault has ended. -/
structure Sound (it origin : Iteration γ) : Prop where
  tracked : it.phase ≠ .aborted → it.Tracked origin
  clean : it.isRunning = true → it.monitors.violation = none
  fault : it.phase = .aborted → it.fault.isSome = true
  message : ∀ kind, it.phase = .stopped (.bugFound kind) → it.message.isSome = true
  deadlock : it.phase = .stopped (.bugFound .deadlock) → it.strategy.isCombined = false →
    0 < it.strategy.maxSteps → it.trace.size < it.strategy.maxSteps
  liveness : it.phase = .stopped (.bugFound .liveness) → ∃ violation : LivenessViolation,
    it.message = some violation.message ∧ violation.isAtBound = it.strategy.atBound

/-- The outcome of an iteration is a bug if it ended with this bug. -/
theorem finish_outcome_eq_bugFound {it : Iteration γ} {kind : BugKind} :
    it.finish.outcome = .bugFound kind ↔ it.phase = .stopped (.bugFound kind) := by
  rw [finish, outcome?]
  cases it.phase with
  | running => simp
  | stopped outcome => simp
  | aborted => simp

/-- A strategy that stands at the same place has counted the same decisions. -/
theorem Tracked.of_keeps {it after origin : Iteration γ} (h : it.Tracked origin)
    (hstrategy : it.strategy.Keeps after.strategy)
    (hmonitors : after.monitors = it.monitors) (htrace : after.trace = it.trace) :
    after.Tracked origin := by
  have hclock := hstrategy.clock
  simp only [Strategy.clock, Clock.mk.injEq] at hclock
  refine ⟨hstrategy.wellFormed h.wellFormed, h.outermost.of_sameKind hstrategy.sameKind,
    hstrategy.sameKind.trans h.sameKind, hclock.2.trans h.maxSteps, hmonitors ▸ h.atRest, ?_,
    fun hcombined hpos => ?_⟩
  · rw [hclock.1, htrace, h.steps]
  · rw [hclock.2] at hpos ⊢
    rw [htrace]
    exact h.within (hstrategy.sameKind.isCombined.symm.trans hcombined) hpos

/-- Enabling operations whose wait is over takes no decision. -/
theorem Tracked.enableWaiting {it origin : Iteration γ} (h : it.Tracked origin) :
    it.enableWaiting.Tracked origin :=
  ⟨h.wellFormed, h.outermost, h.sameKind, h.maxSteps, h.atRest, h.steps, h.within⟩

/-- An iteration that is given up promises nothing. -/
theorem sound_abort (fault : Fault) (it origin : Iteration γ) : (it.abort fault).Sound origin where
  tracked h := absurd rfl h
  clean h := by cases h
  fault _ := by
    rw [abort]
    cases it.fault <;> rfl
  message _ h := by cases h
  deadlock h := by cases h
  liveness h := by cases h

/-- A running iteration is sound if its decisions are counted and no violation is recorded. -/
theorem Tracked.sound {it origin : Iteration γ} (h : it.Tracked origin)
    (hrunning : it.isRunning = true) (hclean : it.monitors.violation = none) : it.Sound origin := by
  have hphase : it.phase = .running := of_decide_eq_true hrunning
  refine ⟨fun _ => h, fun _ => hclean, fun hended => ?_, fun kind hended => ?_, fun hended => ?_,
    fun hended => ?_⟩ <;>
  · rw [hphase] at hended
    cases hended

/-- An iteration that ends without a bug is sound. -/
theorem Tracked.stop {it origin : Iteration γ} (h : it.Tracked origin)
    (hrunning : it.isRunning = true) {outcome : Outcome} (hbug : outcome.isBug = false) :
    (it.stop outcome).Sound origin := by
  have hphase := phase_stop hrunning outcome
  have hnobug (kind : BugKind) : (it.stop outcome).phase ≠ .stopped (.bugFound kind) := by
    rw [hphase]
    rintro ⟨⟩
    cases hbug
  refine ⟨fun _ => h.of_keeps (sameTable_stop outcome it).strategy ?_ ?_, fun hgoesOn => ?_,
    fun hgivenUp => ?_, fun kind hfound => absurd hfound (hnobug kind), fun hfound => absurd hfound (hnobug _),
    fun hfound => absurd hfound (hnobug _)⟩
  · rw [Iteration.stop]
    split <;> rfl
  · rw [Iteration.stop]
    split <;> rfl
  · rw [isRunning, hphase] at hgoesOn
    cases hgoesOn
  · rw [hphase] at hgivenUp
    cases hgivenUp

/-- An iteration that reports a bug is sound if the bug is one for where the strategy stands. -/
theorem Tracked.reportBug {it origin : Iteration γ} (h : it.Tracked origin)
    (hrunning : it.isRunning = true) {kind : BugKind} {message : String}
    (hdeadlock : kind = .deadlock → it.strategy.isCombined = false → 0 < it.strategy.maxSteps →
      it.trace.size < it.strategy.maxSteps)
    (hliveness : kind = .liveness → ∃ violation : LivenessViolation,
      message = violation.message ∧ violation.isAtBound = it.strategy.atBound) :
    (it.reportBug kind message).Sound origin := by
  have hkept := it.strategy.keeps_notifyBug
  have hclock := hkept.clock
  simp only [Strategy.clock, Clock.mk.injEq] at hclock
  rw [Iteration.reportBug, if_pos hrunning]
  refine ⟨fun _ => h.of_keeps hkept rfl rfl, (fun hgoesOn => by cases hgoesOn),
    (fun hgivenUp => by cases hgivenUp), fun _ _ => rfl, fun hphase hcombined hpos => ?_, fun hphase => ?_⟩
  · simp only [Phase.stopped.injEq, Outcome.bugFound.injEq] at hphase
    dsimp only at hcombined hpos ⊢
    rw [hclock.2] at hpos ⊢
    exact hdeadlock hphase (hkept.sameKind.isCombined.symm.trans hcombined) hpos
  · simp only [Phase.stopped.injEq, Outcome.bugFound.injEq] at hphase
    obtain ⟨violation, rfl, hwhere⟩ := hliveness hphase
    exact ⟨violation, rfl, hwhere.trans hkept.atBound.symm⟩

/-- Reaching the bound ends an iteration soundly. -/
theorem Tracked.endAtBound {it origin : Iteration γ} (h : it.Tracked origin)
    (hrunning : it.isRunning = true) (hclean : it.monitors.violation = none)
    (hbound : it.strategy.atBound = true) : it.endAtBound.Sound origin := by
  have hrest : it.monitorsAtBound.SameAtRest it.monitors := by
    unfold monitorsAtBound
    split
    · exact Monitors.sameAtRest_checkAtBound _
    · exact .refl _
  have htracked : ({ it with monitors := it.monitorsAtBound } : Iteration γ).Tracked origin :=
    ⟨h.wellFormed, h.outermost, h.sameKind, h.maxSteps, hrest.trans h.atRest, h.steps, h.within⟩
  rw [endAtBound_eq]
  unfold closeAtBound
  split
  · next violation hviolation =>
    refine htracked.reportBug hrunning (fun hkind => by cases hkind) fun _ => ⟨violation, rfl, ?_⟩
    split at hviolation
    · next hfair =>
      rw [monitorsAtBound, if_pos hfair] at hviolation
      exact (Monitors.isAtBound_checkAtBound hclean hviolation).trans hbound.symm
    · cases hviolation
  · split
    · exact htracked.reportBug hrunning (fun hkind => by cases hkind) fun hkind => by cases hkind
    · exact htracked.stop hrunning rfl

/-! ### Consultations -/

variable [RandomSource γ]

/-- The strategy has been asked: it has moved on by an answer if there is one, and no violation was
found. -/
structure Advanced (it : Iteration γ) (isAnswered : Bool) (after : Iteration γ) : Prop where
  wellFormed : after.strategy.WellFormed
  sameKind : after.strategy.SameKind it.strategy
  clock : after.strategy.clock = it.strategy.clock.tick isAnswered
  atRest : after.monitors.SameAtRest it.monitors
  clean : after.monitors.violation = none
  trace : after.trace = it.trace
  phase : after.phase = it.phase

omit [RandomSource γ] in
/-- A strategy that was asked in vain has counted the decisions. -/
theorem Advanced.tracked {it after origin : Iteration γ} (hit : it.Tracked origin)
    (h : it.Advanced false after) : after.Tracked origin := by
  have hclock := h.clock
  simp only [Clock.tick_false, Strategy.clock, Clock.mk.injEq] at hclock
  refine ⟨h.wellFormed, hit.outermost.of_sameKind h.sameKind, h.sameKind.trans hit.sameKind,
    hclock.2.trans hit.maxSteps, h.atRest.trans hit.atRest, ?_, fun hcombined hpos => ?_⟩
  · rw [hclock.1, h.trace, hit.steps]
  · rw [hclock.2] at hpos ⊢
    rw [h.trace]
    exact hit.within (h.sameKind.isCombined.symm.trans hcombined) hpos

omit [RandomSource γ] in
/-- A decision that is recorded is counted, and it was taken before the bound. -/
theorem Advanced.decided {it after decided origin : Iteration γ} (hit : it.Tracked origin)
    (hbound : it.strategy.atBound = false) (h : it.Advanced true after) {decision : Decision}
    (hstrategy : decided.strategy = after.strategy) (hmonitors : decided.monitors = after.monitors)
    (htrace : decided.trace = after.trace.push decision) : decided.Tracked origin := by
  have hsize : decided.trace.size = it.trace.size + 1 := by
    rw [htrace, h.trace, Trace.size, Trace.push, Array.size_push]
    rfl
  have hclock := h.clock
  simp only [Clock.tick, Strategy.clock, Clock.mk.injEq, Bool.toNat_true] at hclock
  refine ⟨hstrategy ▸ h.wellFormed, hstrategy ▸ hit.outermost.of_sameKind h.sameKind,
    hstrategy ▸ h.sameKind.trans hit.sameKind, ?_, hmonitors ▸ h.atRest.trans hit.atRest, ?_,
    fun hcombined hpos => ?_⟩
  · rw [hstrategy, hclock.2, hit.maxSteps]
  · rw [hstrategy, hclock.1, hsize, hit.steps]
  · rw [hstrategy] at hcombined hpos ⊢
    rw [hclock.2] at hpos ⊢
    rw [h.sameKind.isCombined] at hcombined
    rw [Strategy.atBound_eq_of_not_combined hcombined, Bool.eq_false_iff, Ne, Clock.atBound_iff]
      at hbound
    simp only [Strategy.clock, hit.steps] at hbound
    omega

/-- How a consultation of a strategy of a campaign leaves the iteration: given up, ended soundly, or
with the strategy moved on. -/
theorem Consulted.cases_sound [LawfulRandomSource γ] {query : Query} {it origin : Iteration γ}
    {result : Except Fault (Option (Option query.Answer)) × Iteration γ}
    (h : Consulted query it result) (hit : it.Tracked origin) (hrunning : it.isRunning = true)
    (hclean : it.monitors.violation = none) (hbound : it.strategy.atBound = false)
    (hquery : ∀ op, it.operation? it.current = some op → query.IsAskedBy op) :
    (∃ fault, result.1 = .error fault) ∨ (result.1 = .ok none ∧ result.2.Sound origin) ∨
      ∃ answer, result.1 = .ok (some answer) ∧ it.Advanced answer.isSome result.2 ∧
        ∀ value, answer = some value → value ∈ query.alternatives := by
  cases h with
  | unknown => exact .inl ⟨_, rfl⟩
  | failed => exact .inl ⟨_, rfl⟩
  | @violated op answer strategy monitors violation hop hanswer hviolation =>
    obtain ⟨hchecked, hhalted⟩ := hit.outermost.answer_spec op query hclean
    rw [hanswer] at hchecked hhalted
    change monitors = _ at hchecked
    subst hchecked
    have hsame := hhalted (by rw [hviolation]; rfl)
    simp only [Prod.mk.injEq] at hsame
    obtain ⟨-, rfl, -⟩ := hsame
    refine .inr (.inl ⟨rfl, ?_⟩)
    have htracked : ({ it with
        monitors := it.monitors.checkedFor it.strategy.isDecorated it.strategy.isFair } :
        Iteration γ).Tracked origin :=
      ⟨hit.wellFormed, hit.outermost, hit.sameKind, hit.maxSteps,
        (Monitors.sameAtRest_checkedFor _ _ _).trans hit.atRest, hit.steps, hit.within⟩
    refine htracked.reportBug hrunning (fun hkind => by cases hkind) fun _ => ⟨violation, rfl, ?_⟩
    rw [Monitors.checkedFor] at hviolation
    split at hviolation
    · exact (Monitors.isAtBound_checkTemperature hclean hviolation).trans hbound.symm
    · cases hclean.symm.trans hviolation
  | @answered op answer strategy taken monitors hop hanswer hviolation hfault =>
    have hanswered := Strategy.answered (hquery op hop) hit.wellFormed it.monitors
    obtain ⟨hchecked, -⟩ := hit.outermost.answer_spec op query hclean
    rw [hanswer] at hanswered hchecked
    have hrest : monitors.SameAtRest it.monitors := by
      change monitors = _ at hchecked
      rw [hchecked]
      exact Monitors.sameAtRest_checkedFor _ _ _
    have hkept := strategy.keeps_takeFault
    rw [hfault] at hkept
    exact .inr (.inr ⟨answer, rfl, ⟨hkept.wellFormed hanswered.wellFormed,
      hkept.sameKind.trans hanswered.sameKind, hkept.clock.trans hanswered.clock,
      hrest, hviolation, rfl, rfl⟩, hanswered.mem⟩)

/-- A turn that is given out leaves the iteration sound. -/
theorem Tracked.scheduleNext [LawfulRandomSource γ] {it origin : Iteration γ}
    (hit : it.Tracked origin) (hrunning : it.isRunning = true) (hclean : it.monitors.violation = none)
    (hnumbered : it.IsNumbered) {next : Option OperationId} {after : Iteration γ}
    (hnext : it.scheduleNext = (.ok next, after)) : after.Sound origin := by
  have hwaiting := hit.enableWaiting
  have hscheduled := it.scheduled
  rw [hnext] at hscheduled
  cases hscheduled with
  | ended h => cases h.symm.trans hrunning
  | completed h => exact hwaiting.stop hrunning rfl
  | atBound h => exact hwaiting.endAtBound hrunning hclean h
  | consulted hbound hanswer hresult =>
    have hcases := hanswer.cases_sound hwaiting hrunning hclean hbound
      fun op hop => hnumbered.enableWaiting.isAskedBy hop
    cases hresult with
    | violated =>
      rcases hcases with ⟨fault, heq⟩ | ⟨-, hsound⟩ | ⟨answer, heq, -⟩
      · cases heq
      · exact hsound
      · cases heq
    | @unanswered between =>
      rcases hcases with ⟨fault, heq⟩ | ⟨heq, -⟩ | ⟨answer, heq, hadvanced, -⟩
      · cases heq
      · cases heq
      · obtain rfl : none = answer := Option.some.inj (Except.ok.inj heq)
        have htracked : between.Tracked origin := hadvanced.tracked hwaiting
        have hgoesOn : between.isRunning = true := by
          rw [isRunning, hadvanced.phase]
          exact hrunning
        rw [endWithoutChoice]
        split
        · refine htracked.reportBug hgoesOn (fun _ hcombined hpos => ?_) fun hkind => by cases hkind
          have hclock : between.strategy.clock = it.strategy.clock := hadvanced.clock
          have hbefore : between.strategy.atBound = false := by
            have halone : it.strategy.isCombined = false :=
              hadvanced.sameKind.isCombined.symm.trans hcombined
            rw [Strategy.atBound_eq_of_not_combined hcombined, hclock,
              ← Strategy.atBound_eq_of_not_combined halone]
            exact hbound
          rw [Strategy.atBound_eq_of_not_combined hcombined, Bool.eq_false_iff, Ne,
            Clock.atBound_iff] at hbefore
          simp only [Strategy.clock, htracked.steps] at hbefore
          omega
        · exact htracked.stop hgoesOn rfl
    | @scheduled next op between hop henabled =>
      rcases hcases with ⟨fault, heq⟩ | ⟨heq, -⟩ | ⟨answer, heq, hadvanced, -⟩
      · cases heq
      · cases heq
      · obtain rfl : some next = answer := Option.some.inj (Except.ok.inj heq)
        refine Tracked.sound (hadvanced.decided hwaiting hbound rfl rfl rfl) ?_ hadvanced.clean
        rw [isRunning, schedule, hadvanced.phase]
        exact hrunning

/-- A value that is given out leaves the iteration sound. -/
theorem Tracked.choose [LawfulRandomSource γ] {it origin : Iteration γ}
    (hit : it.Tracked origin) (hrunning : it.isRunning = true)
    (hclean : it.monitors.violation = none) {query : Query}
    (hquery : ∀ op, query.IsAskedBy op) {value : Option query.Answer} {after : Iteration γ}
    (hchoose : it.choose query = (.ok value, after)) : after.Sound origin := by
  have hchosen := it.chosen query
  rw [hchoose] at hchosen
  cases hchosen with
  | ended hended => cases hended.symm.trans hrunning
  | atBound hbound => exact hit.endAtBound hrunning hclean hbound
  | violated hbound _ hanswer =>
    rcases hanswer.cases_sound hit hrunning hclean hbound fun op _ => hquery op with
      ⟨fault, heq⟩ | ⟨-, hsound⟩ | ⟨answer, heq, -⟩
    · cases heq
    · exact hsound
    · cases heq
  | @given hbound _ value between hanswer =>
    rcases hanswer.cases_sound hit hrunning hclean hbound fun op _ => hquery op with
      ⟨fault, heq⟩ | ⟨heq, -⟩ | ⟨answer, heq, hadvanced, -⟩
    · cases heq
    · cases heq
    · obtain rfl := Option.some.inj (Except.ok.inj heq)
      refine Tracked.sound (hadvanced.decided hit hbound rfl rfl rfl) ?_ hadvanced.clean
      change decide (between.phase = .running) = true
      rw [hadvanced.phase]
      exact hrunning

end Iteration

/-- The decisions of an iteration that goes on are counted. -/
theorem Iteration.Sound.tracked_of_running {it origin : Iteration γ} (h : it.Sound origin)
    (hrunning : it.isRunning = true) : it.Tracked origin := by
  apply h.tracked
  rw [isRunning, decide_eq_true_eq] at hrunning
  rw [hrunning]
  decide

namespace Execution

/-- A turn takes no decision as long as nothing is asked. -/
theorem SameRun.tracked {ex after : Execution γ σ μ} {origin : Iteration γ} (h : ex.SameRun after)
    (hbefore : ex.iteration.Tracked origin) : after.iteration.Tracked origin := by
  obtain ⟨operations, coverage, monitors, hsame, hcooled⟩ := h
  have hrest : ({ ex.iteration.monitors with monitors } : Monitors).SameAtRest
      ex.iteration.monitors := ⟨rfl, hcooled⟩
  rw [hsame]
  exact ⟨hbefore.wellFormed, hbefore.outermost, hbefore.sameKind, hbefore.maxSteps,
    hrest.trans hbefore.atRest, hbefore.steps, hbefore.within⟩

variable [RandomSource γ]

/-- A step keeps an iteration of a campaign sound. -/
theorem sound_step [LawfulRandomSource γ] {program : Program σ μ} {ex after : Execution γ σ μ}
    {origin : Iteration γ} (hsettled : ex.Settled) (h : ex.iteration.Sound origin)
    (hstep : ex.step program = some after) : after.iteration.Sound origin := by
  rw [step_eq_settle, Option.map_eq_some_iff] at hstep
  obtain ⟨turn, hturn, rfl⟩ := hstep
  obtain ⟨hrunning, hof⟩ := isOf_turn hturn
  have hnext := hsettled.turn hturn
  have htracked := hof.sameRun.tracked (h.tracked_of_running hrunning)
  have hrunning' := hof.sameRun.isRunning.trans hrunning
  have hclean := hof.sameRun.violation.trans (h.clean hrunning)
  cases turn with
  | quiet after => exact htracked.sound hrunning' hclean
  | point before =>
    rw [Turn.settle, reschedule]
    split
    · next heq => exact htracked.scheduleNext hrunning' hclean (Settled.isNumbered hnext) heq
    · exact Iteration.sound_abort _ _ _
  | choice id next query wrap before =>
    rw [Turn.settle, choose]
    split
    · next heq => exact htracked.choose hrunning' hclean hnext.2.2.isAskedBy heq
    · next heq => exact htracked.choose hrunning' hclean hnext.2.2.isAskedBy heq
    · exact Iteration.sound_abort _ _ _
  | bug kind message before =>
    refine htracked.reportBug hrunning' (fun hkind => ?_) fun hkind => ?_ <;>
    · rcases hof.2 with rfl | rfl <;> cases hkind
  | fault cause before => exact Iteration.sound_abort _ _ _

/-- Steps keep an iteration of a campaign sound. -/
theorem sound_run [LawfulRandomSource γ] {program : Program σ μ} {ex : Execution γ σ μ}
    {origin : Iteration γ} (hsettled : ex.Settled) (h : ex.iteration.Sound origin) (fuel : Nat) :
    (ex.run program fuel).iteration.Sound origin := by
  induction fuel generalizing ex with
  | zero => exact h
  | succ fuel ih =>
    rw [Execution.run]
    split
    · next after hstep => exact ih (hsettled.step hstep) (sound_step hsettled h hstep)
    · exact h

end Execution

end ScheduleExplorer
