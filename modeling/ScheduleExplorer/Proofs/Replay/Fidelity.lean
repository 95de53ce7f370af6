import ScheduleExplorer.Proofs.Replay.Bounds
import ScheduleExplorer.Proofs.Replay.Campaigns

/-!
# Replay fidelity

The bug that a campaign reports is reported again by the replay of its trace, with the same kind,
message, trace and number of steps, unless the strategy is a combination that found it too late. The
replay of a combination runs under the step bound of its last part alone, so it ends early where the
parts took more steps together, and where they took as many and a query found the bug.
-/

namespace ScheduleExplorer

variable {γ σ μ : Type} [RandomSource γ]

namespace Campaign

/-- A replay of the trace of a bug reports this bug first, as it was. -/
def Reproduces (campaign : Campaign) (source : UInt64 → γ) (program : Program σ μ) (fuel : Nat)
    (bug : BugReport) : Prop :=
  ∃ exploration report first, campaign.replayFrom source bug.trace program fuel = some exploration ∧
    exploration.result = .ok report ∧ report.firstBug? = some first ∧ first.kind = bug.kind ∧
    first.message = bug.message ∧ first.trace = bug.trace ∧
    first.scheduledSteps = bug.scheduledSteps

/-- The step bound for the selected strategy. -/
def stepBound (campaign : Campaign) : Nat :=
  campaign.config.stepBound campaign.config.selection.isFair

/-- What a replay of a trace is made from. -/
def recording (campaign : Campaign) (trace : Trace) : Recording where
  trace
  bound := campaign.stepBound
  isFair := campaign.config.selection.isFair
  isWatched := !campaign.monitors.isEmpty

/-- The beginning of a replay. -/
def replayBeginning (campaign : Campaign) (source : UInt64 → γ) (trace : Trace) : Progress γ μ :=
  .start (campaign.watched (campaign.config.replayStrategy source trace)) campaign.registry

/-- A replay begins with the strategy that replays the recording. -/
theorem strategy_replayBeginning (campaign : Campaign) (source : UInt64 → γ) (trace : Trace) :
    (campaign.replayBeginning source trace : Progress γ μ).strategy =
      (campaign.recording trace).strategy 0 := by
  have hfair : (campaign.config.strategy source).isFair = campaign.config.selection.isFair :=
    campaign.config.isFair_build source _ _
  have hreplay : campaign.config.replayStrategy source trace =
      .replay ((campaign.recording trace).replay 0) := by
    rw [Config.replayStrategy, hfair]
    rfl
  rw [replayBeginning, hreplay]
  exact campaign.watched_eq _

/-- The strategy at the beginning of a campaign is combined if it is selected so, and has the step
bound for its fairness. -/
theorem strategy_beginning (campaign : Campaign) (source : UInt64 → γ) :
    (campaign.beginning source : Progress γ μ).strategy.isCombined =
        campaign.config.selection.isCombined ∧
      (campaign.beginning source : Progress γ μ).strategy.maxSteps = campaign.stepBound ∧
      ∀ trace, (campaign.recording trace).Fits
        (campaign.beginning source : Progress γ μ).strategy := by
  obtain ⟨-, hclock, hcombined, hplain⟩ :=
    campaign.config.build_spec source campaign.config.selection campaign.config.seed
  have hfair : (campaign.config.strategy source).isFair = campaign.config.selection.isFair :=
    campaign.config.isFair_build source _ _
  have hstrategy : (campaign.beginning source : Progress γ μ).strategy =
      .watch (!campaign.monitors.isEmpty) (campaign.config.strategy source) :=
    campaign.watched_eq _
  rw [hstrategy]
  refine ⟨?_, ?_, fun trace => ⟨?_, ?_⟩⟩
  · rw [Strategy.isCombined_watch]
    exact hcombined
  · rw [Strategy.maxSteps_watch, stepBound, ← hfair]
    exact congrArg Clock.maxSteps hclock
  · rw [Strategy.isFair_watch, hfair]
    rfl
  · exact (Strategy.isOutermost_watch _ hplain).2.symm

/-- A replay begins ready. -/
theorem ready_replayBeginning (campaign : Campaign) (source : UInt64 → γ) (trace : Trace) :
    (campaign.replayBeginning source trace : Progress γ μ).Ready
      (campaign.replayBeginning source trace) := by
  have hstrategy : (campaign.replayBeginning source trace : Progress γ μ).strategy = _ :=
    campaign.strategy_replayBeginning source trace
  refine ⟨?_, ?_, .refl _, ?_, .refl _⟩
  · rw [hstrategy, Recording.strategy, Strategy.wellFormed_watch]
    trivial
  · rw [hstrategy]
    exact ((campaign.recording trace).isOutermost_strategy 0).1
  · rw [hstrategy, Strategy.clock, Recording.steps_strategy]

/-- The replay of a trace begins as an iteration of the campaign does, under the strategy that
replays. -/
theorem nextIteration_replayBeginning {campaign : Campaign} {source : UInt64 → γ}
    {p : Progress γ μ} (h : Progress.Ready (campaign.beginning source) p) (trace : Trace) :
    (campaign.replayBeginning source trace : Progress γ μ).nextIteration campaign.config =
      (p.nextIteration campaign.config).under ((campaign.recording trace).strategy 0) {} 0 := by
  have hmonitors : { p.monitors.resetForIteration with checks := 0 } =
      campaign.registry.resetForIteration := by
    rw [h.atRest.resetForIteration_eq]
    rfl
  rw [Progress.nextIteration, strategy_replayBeginning, Iteration.under, Progress.nextIteration]
  rw [hmonitors]
  rfl

variable {campaign : Campaign} {source : UInt64 → γ} {program : Program σ μ} {fuel : Nat}
  {p : Progress γ μ} {bug : BugReport}

/-- A bug is reproduced if the one iteration of the replay finds it as it was. -/
theorem reproduces_iff : campaign.Reproduces source program fuel bug ↔
    ∃ first, (campaign.replayBeginning source bug.trace : Progress γ μ).Finds campaign.config
        program fuel first ∧ first.kind = bug.kind ∧ first.message = bug.message ∧
      first.trace = bug.trace ∧ first.scheduledSteps = bug.scheduledSteps := by
  have hone (first : BugReport) :
      (∃ exploration report, campaign.replayFrom source bug.trace program fuel = some exploration ∧
        exploration.result = .ok report ∧ report.firstBug? = some first) ↔
      (campaign.replayBeginning source bug.trace : Progress γ μ).Finds campaign.config program
        fuel first :=
    campaign.firstBug?_explore_one program fuel rfl
  constructor
  · rintro ⟨exploration, report, first, hreplay, hreport, hfirst, hsame⟩
    exact ⟨first, (hone first).mp ⟨exploration, report, hreplay, hreport, hfirst⟩, hsame⟩
  · rintro ⟨first, hfinds, hsame⟩
    obtain ⟨exploration, report, hreplay, hreport, hfirst⟩ := (hone first).mpr hfinds
    exact ⟨exploration, report, first, hreplay, hreport, hfirst, hsame⟩

/-- The strategy of an iteration is combined if it is selected so, has the step bound for its
fairness, and is fit for being replayed. -/
theorem strategy_of_ready (h : Progress.Ready (campaign.beginning source) p) :
    p.strategy.isCombined = campaign.config.selection.isCombined ∧
      p.strategy.maxSteps = campaign.stepBound ∧
      ∀ trace, (campaign.recording trace).Fits p.strategy := by
  obtain ⟨hcombined, hbound, hfits⟩ := campaign.strategy_beginning source (μ := μ)
  exact ⟨h.sameKind.isCombined.trans hcombined, (congrArg Clock.maxSteps h.clock).trans hbound,
    fun trace => ⟨(hfits trace).isFair.trans h.sameKind.isFair.symm,
      (hfits trace).isWatched.trans h.sameKind.isDecorated.symm⟩⟩

variable [LawfulRandomSource γ]

/-- The steps of a bug that is found are the decisions of its trace. -/
theorem scheduledSteps_eq (h : Progress.Ready (campaign.beginning source) p)
    (hfinds : p.Finds campaign.config program fuel bug) :
    bug.scheduledSteps = (p.last campaign.config program fuel).iteration.trace.size := by
  rw [← hfinds.report]
  exact (h.tracked_last hfinds.fault).steps

/-- The replay of the trace of a replayable bug goes through the iteration that found it. -/
theorem follows_last (h : Progress.Ready (campaign.beginning source) p)
    (hfinds : p.Finds campaign.config program fuel bug)
    (hreplayable : IsReplayable campaign.config.selection.isCombined campaign.stepBound
      bug.scheduledSteps bug.kind) :
    (campaign.recording bug.trace).FollowsExecution (p.last campaign.config program fuel)
      ((campaign.replayBeginning source bug.trace).last campaign.config program fuel) := by
  obtain ⟨hcombined, hbound, hfits⟩ := strategy_of_ready h
  have hsettled : (Execution.start program (p.nextIteration campaign.config)).Settled :=
    Execution.settled_start program rfl
  have hstart : (campaign.recording bug.trace).FollowsExecution
      (Execution.start program (p.nextIteration campaign.config))
      (Execution.start program
        ((campaign.replayBeginning source bug.trace : Progress γ μ).nextIteration
          campaign.config)) := by
    have hsteps : (Execution.start program
        (p.nextIteration campaign.config)).iteration.strategy.steps = 0 :=
      congrArg Clock.steps h.clock
    refine ⟨{}, 0, ?_⟩
    rw [nextIteration_replayBeginning h, Execution.start_under, hsteps]
  have hagrees := Recording.agreesAt_of_isReplayable (r := campaign.recording bug.trace) hsettled
    (h.sound campaign.config program) hbound.symm hfinds.phase
  rw [scheduledSteps_eq h hfinds, ← hcombined] at hreplayable
  refine hstart.run (hfits bug.trace) hsettled (h.sound campaign.config program)
    (hagrees hreplayable) ?_ ?_
  · exact fun haborted => by cases haborted.symm.trans hfinds.phase
  · rw [← hfinds.report]
    exact List.prefix_refl _

/-- The replay of the trace of a replayable bug reports the bug. -/
theorem reproduces_of_isReplayable (h : Progress.Ready (campaign.beginning source) p)
    (hfinds : p.Finds campaign.config program fuel bug)
    (hreplayable : IsReplayable campaign.config.selection.isCombined campaign.stepBound
      bug.scheduledSteps bug.kind) : campaign.Reproduces source program fuel bug := by
  obtain ⟨coverage, checks, htwin⟩ := follows_last h hfinds hreplayable
  have hmessage := congrArg BugReport.message hfinds.report
  have htrace := congrArg BugReport.trace hfinds.report
  have hsteps := congrArg BugReport.scheduledSteps hfinds.report
  refine reproduces_iff.mpr ⟨Progress.bugReport bug.kind
    ((campaign.replayBeginning source bug.trace).last campaign.config program fuel).iteration.finish
    (campaign.replayBeginning source bug.trace), ⟨?_, ?_, ?_, rfl⟩, rfl, ?_, ?_, ?_⟩
  · rw [htwin]
    exact hfinds.isOver
  · rw [htwin]
    exact hfinds.fault
  · rw [htwin]
    exact hfinds.phase
  · rw [htwin]
    exact hmessage
  · rw [htwin]
    exact htrace
  · rw [htwin]
    exact ((campaign.recording bug.trace).steps_strategy _).trans hsteps

/-- A bug that the replay of its trace reports is replayable. -/
theorem isReplayable_of_reproduces {more : Nat} (h : Progress.Ready (campaign.beginning source) p)
    (hfinds : p.Finds campaign.config program fuel bug)
    (hreproduces : campaign.Reproduces source program more bug) :
    IsReplayable campaign.config.selection.isCombined campaign.stepBound bug.scheduledSteps
      bug.kind := by
  obtain ⟨first, htwin, hkind, hmessage, htrace, -⟩ := reproduces_iff.mp hreproduces
  have htwinReady := campaign.ready_replayBeginning source bug.trace (μ := μ)
  have hstrategy := campaign.strategy_replayBeginning source bug.trace (μ := μ)
  obtain ⟨hcombined, hbound, -⟩ := strategy_of_ready h
  have htracked := h.tracked_last hfinds.fault
  have hsound := h.sound_last campaign.config program fuel
  have htwinTracked := htwinReady.tracked_last htwin.fault
  have htwinSound := htwinReady.sound_last campaign.config program more
  have hmax : (p.last campaign.config program fuel).iteration.strategy.maxSteps =
      campaign.stepBound := htracked.maxSteps.trans hbound
  have hselected : (p.last campaign.config program fuel).iteration.strategy.isCombined =
      campaign.config.selection.isCombined := htracked.sameKind.isCombined.trans hcombined
  have halone : (campaign.replayBeginning source bug.trace : Progress γ μ).strategy.isCombined =
      false := by
    rw [hstrategy, Recording.strategy, Strategy.isCombined_watch]
    rfl
  have htwinMax : (campaign.replayBeginning source bug.trace : Progress γ μ).strategy.maxSteps =
      campaign.stepBound := by
    rw [hstrategy, Recording.strategy, Strategy.maxSteps_watch]
    rfl
  rw [scheduledSteps_eq h hfinds, ← hselected, ← hmax]
  refine Iteration.isReplayable_of_found htracked hsound htwinTracked htwinSound
    (htwinTracked.sameKind.isCombined.trans halone)
    ((htwinTracked.maxSteps.trans htwinMax).trans hmax.symm) hfinds.phase (hkind ▸ htwin.phase) ?_ ?_
  · have hworded := congrArg BugReport.message hfinds.report
    have htwinWorded := congrArg BugReport.message htwin.report
    simp only [Progress.bugReport, Iteration.finish] at hworded htwinWorded
    obtain ⟨message, hsome⟩ := Option.isSome_iff_exists.mp (hsound.message _ hfinds.phase)
    obtain ⟨found, hfound⟩ := Option.isSome_iff_exists.mp (htwinSound.message _ htwin.phase)
    rw [hsome, Option.getD_some] at hworded
    rw [hfound, Option.getD_some] at htwinWorded
    rw [hsome, hfound, hworded, htwinWorded, hmessage]
  · rw [← htwin.report] at htrace
    exact htrace.trans (congrArg BugReport.trace hfinds.report).symm

/-- A bug of a campaign is reproduced by the replay of its trace if and only if it is replayable:
the strategy is not combined or has no step bound, or the bug was found before the bound, or at the
bound by a failure of the program itself. More fuel makes no difference. -/
theorem reproduces_iff_isReplayable {exploration : Exploration μ} {report : Report} {more : Nat}
    (hrun : campaign.runFrom source program fuel = some exploration)
    (hreport : exploration.result = .ok report) (hbug : bug ∈ report.bugs)
    (hfuel : fuel ≤ more) :
    campaign.Reproduces source program more bug ↔
      IsReplayable campaign.config.selection.isCombined campaign.stepBound bug.scheduledSteps
        bug.kind := by
  obtain hbefore | ⟨p, hready, hfinds⟩ :=
    mem_bugs_explore (campaign.ready_beginning source) hrun hreport hbug
  · cases hbefore
  · have hmore := hfinds.of_le hfuel
    exact ⟨isReplayable_of_reproduces hready hmore, reproduces_of_isReplayable hready hmore⟩

/-- A program that yields a number of times and then fails an assertion. -/
def failsAfter (yields : Nat) : Program Nat Unit where
  main := yields
  memory := ()
  resume _ left _ memory :=
    (if left = 0 then .call (.assert false "reached") 0 else .call .yield (left - 1), memory)
  hasher := some fun _ => {}

/-- One iteration of two depth-first searches, one after the other, of at most two steps each. -/
def twoSearches : Campaign where
  config := {
    iterations := 1
    selection := .combo .depthFirst .depthFirst
    maxUnfairSteps := 2
    maxFairSteps := 2 }

/-- The two searches find the failure after one step, and it is replayed. -/
theorem reproduces_iff_isReplayable_failsAfter_one : ∃ exploration report bug,
    twoSearches.run (failsAfter 1) 9 = some exploration ∧ exploration.result = .ok report ∧
      bug ∈ report.bugs ∧ 9 ≤ 12 ∧
      twoSearches.Reproduces ChaChaSource.ofSeed (failsAfter 1) 12 bug := by
  have hrun : twoSearches.run (failsAfter 1) 9 = some _ := rfl
  refine ⟨_, _, _, hrun, rfl, .head _, by omega, ?_⟩
  refine (reproduces_iff_isReplayable hrun rfl (.head _) (by omega)).mpr ?_
  exact .inr (.inr (.inl (by decide)))

/-- The two searches find the failure after three steps, and the replay ends before it. -/
theorem not_reproduces_failsAfter_three : twoSearches.config.validate = .ok () ∧
    ∃ exploration report bug, twoSearches.run (failsAfter 3) 12 = some exploration ∧
      exploration.result = .ok report ∧ bug ∈ report.bugs ∧
      ¬ twoSearches.Reproduces ChaChaSource.ofSeed (failsAfter 3) 12 bug := by
  refine ⟨rfl, _, _, _, rfl, rfl, .head _, ?_⟩
  rintro ⟨exploration, report, first, hreplay, hreport, hfirst, -⟩
  obtain rfl := Option.some.inj hreplay
  obtain rfl := Except.ok.inj hreport
  cases hfirst

end Campaign

end ScheduleExplorer
