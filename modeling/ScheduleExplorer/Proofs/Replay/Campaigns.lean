import ScheduleExplorer.Campaign
import ScheduleExplorer.Proofs.Execution.Endings
import ScheduleExplorer.Proofs.Random.Lawful
import ScheduleExplorer.Proofs.Strategy.Watching

/-!
# What campaigns find

Each iteration of a campaign begins as the first one did: with a strategy of the same kind that has
taken no step, and with cold monitors (`Progress.Ready`). So every iteration that no fault ends is
sound, and every bug of the report was found by such an iteration (`Progress.Finds`).
-/

namespace ScheduleExplorer

variable {γ σ μ : Type}

namespace Campaign

/-- Between iterations a campaign stands as it stood at its beginning. -/
structure Progress.Ready (first p : Progress γ μ) : Prop where
  wellFormed : p.strategy.WellFormed
  outermost : first.strategy.IsOutermost
  sameKind : p.strategy.SameKind first.strategy
  clock : p.strategy.clock = ⟨0, first.strategy.maxSteps⟩
  atRest : p.monitors.SameAtRest first.monitors

/-- An iteration that is about to begin is sound. -/
theorem Progress.Ready.sound {first p : Progress γ μ} (h : first.Ready p) (config : Config)
    (program : Program σ μ) :
    (Execution.start program (p.nextIteration config)).iteration.Sound
      (p.nextIteration config) := by
  have htracked : (Execution.start program (p.nextIteration config)).iteration.Tracked
      (p.nextIteration config) :=
    ⟨h.wellFormed, h.outermost.of_sameKind h.sameKind, .refl _, rfl, .refl _,
      congrArg Clock.steps h.clock, fun _ _ => Nat.zero_le _⟩
  exact htracked.sound rfl rfl

/-- The bug that the result of an iteration reports. -/
def Progress.bug? (result : IterationResult γ) (p : Progress γ μ) : Option BugReport :=
  match result.outcome with
  | .bugFound kind => some (p.bugReport kind result)
  | _ => none

/-- A result reports a bug if the iteration ended with one. -/
theorem Progress.bug?_eq_some {p : Progress γ μ} {result : IterationResult γ} {bug : BugReport} :
    p.bug? result = some bug ↔
      ∃ kind, result.outcome = .bugFound kind ∧ p.bugReport kind result = bug := by
  rw [bug?]
  cases result.outcome with
  | bugFound kind => simp
  | completed => simp
  | stepBoundReached => simp

/-- After an iteration its bug stands behind the bugs that were known before. -/
theorem Progress.bugs_record (result : IterationResult γ) (memory : μ) (p : Progress γ μ) :
    (p.record result memory).report.bugs = p.report.bugs ++ (p.bug? result).toList := by
  rw [record, bug?]
  cases result.outcome with
  | bugFound kind => rfl
  | completed => exact (List.append_nil _).symm
  | stepBoundReached => exact (List.append_nil _).symm

/-- The campaign stops at the bug of a result. -/
def StopsAt (campaign : Campaign) (result : IterationResult γ) : Prop :=
  campaign.config.stopOnFirstBug = true ∧ result.outcome.isBug = true

variable [RandomSource γ]

/-- The last execution of the next iteration. -/
def Progress.last (config : Config) (program : Program σ μ) (fuel : Nat) (p : Progress γ μ) :
    Execution γ σ μ :=
  (Execution.start program (p.nextIteration config)).run program fuel

/-- The result of an iteration is what its last execution leaves behind, if it is over. -/
theorem Progress.run_eq_some {config : Config} {program : Program σ μ} {fuel : Nat}
    {p : Progress γ μ} {result : IterationResult γ} {memory : μ} :
    program.run fuel (p.nextIteration config) = some (result, memory) ↔
      (p.last config program fuel).isOver = true ∧
        (p.last config program fuel).iteration.finish = result ∧
        (p.last config program fuel).memory = memory :=
  Program.run_eq_some

/-- The next iteration is not given up and finds the bug. -/
structure Progress.Finds (config : Config) (program : Program σ μ) (fuel : Nat) (bug : BugReport)
    (p : Progress γ μ) : Prop where
  isOver : (p.last config program fuel).isOver = true
  fault : (p.last config program fuel).iteration.fault = none
  phase : (p.last config program fuel).iteration.phase = .stopped (.bugFound bug.kind)
  report : p.bugReport bug.kind (p.last config program fuel).iteration.finish = bug

/-- The iteration finds a bug if its result reports it. -/
theorem Progress.finds_iff {config : Config} {program : Program σ μ} {fuel : Nat}
    {bug : BugReport} {p : Progress γ μ} : p.Finds config program fuel bug ↔
      ∃ result memory, program.run fuel (p.nextIteration config) = some (result, memory) ∧
        result.fault = none ∧ p.bug? result = some bug := by
  constructor
  · intro h
    exact ⟨_, _, run_eq_some.mpr ⟨h.isOver, rfl, rfl⟩, h.fault,
      bug?_eq_some.mpr ⟨bug.kind, Iteration.finish_outcome_eq_bugFound.mpr h.phase, h.report⟩⟩
  · rintro ⟨result, memory, hrun, hfault, hbug⟩
    obtain ⟨hover, rfl, -⟩ := run_eq_some.mp hrun
    obtain ⟨kind, houtcome, rfl⟩ := bug?_eq_some.mp hbug
    exact ⟨hover, hfault, Iteration.finish_outcome_eq_bugFound.mp houtcome, rfl⟩

/-- An iteration that finds a bug finds it with more fuel too. -/
theorem Progress.Finds.of_le {config : Config} {program : Program σ μ} {fuel more : Nat}
    {bug : BugReport} {p : Progress γ μ} (h : p.Finds config program fuel bug)
    (hle : fuel ≤ more) : p.Finds config program more bug := by
  obtain ⟨result, memory, hrun, hsame⟩ := finds_iff.mp h
  exact finds_iff.mpr ⟨result, memory, Program.run_of_le hle hrun, hsame⟩

/-- A campaign that is asked for another iteration stands with the strategy that was prepared. -/
def Progress.advance (p : Progress γ μ) : Progress γ μ :=
  { p with strategy := p.strategy.prepare.2, iteration := p.iteration + 1 }

/-- A campaign with a positive budget that gives a report ends its next iteration without a fault.
Then it is over, or nothing is left, or it goes on with a smaller budget. -/
theorem exists_of_explore_succ {campaign : Campaign} {program : Program σ μ} {fuel budget : Nat}
    {p : Progress γ μ} {exploration : Exploration μ} {report : Report}
    (hexplore : campaign.explore program fuel (budget + 1) p = some exploration)
    (hreport : exploration.result = .ok report) :
    ∃ result memory, program.run fuel (p.nextIteration campaign.config) = some (result, memory) ∧
      result.fault = none ∧
      ((campaign.StopsAt result ∨ budget = 0) ∧ (p.record result memory).finish = exploration ∨
        (¬ campaign.StopsAt result ∧ budget ≠ 0) ∧
          (result.strategy.prepare.1 = false ∧
              (p.record result memory).advance.exhaust = exploration ∨
            result.strategy.prepare.1 = true ∧
              campaign.explore program fuel budget (p.record result memory).advance =
                some exploration)) := by
  rw [explore] at hexplore
  split at hexplore
  · cases hexplore
  · next result memory hrun =>
    refine ⟨result, memory, hrun, ?_⟩
    split at hexplore
    · obtain rfl := Option.some.inj hexplore
      cases hreport
    · next hfault =>
      refine ⟨hfault, ?_⟩
      have hstops : campaign.StopsAt result ↔
          (result.outcome.isBug && campaign.config.stopOnFirstBug) = true := by
        rw [StopsAt, and_comm, Bool.and_eq_true]
      rw [hstops]
      dsimp only at hexplore
      split at hexplore
      · next hstop => exact .inl ⟨.inl hstop, Option.some.inj hexplore⟩
      · next hgoes =>
        split at hexplore
        · next hspent => exact .inl ⟨.inr hspent, Option.some.inj hexplore⟩
        · next hleft =>
          refine .inr ⟨⟨hgoes, hleft⟩, ?_⟩
          split at hexplore
          · next hmore => exact .inr ⟨hmore, hexplore⟩
          · next hnone => exact .inl ⟨Bool.eq_false_iff.mpr hnone, Option.some.inj hexplore⟩

variable (campaign : Campaign) (program : Program σ μ) (fuel : Nat)

/-- A campaign of one iteration reports the bug of this iteration, if no fault ends it. -/
theorem firstBug?_explore_one {p : Progress γ μ} (hnew : p.report.bugs = []) {bug : BugReport} :
    (∃ exploration report, campaign.explore program fuel 1 p = some exploration ∧
      exploration.result = .ok report ∧ report.firstBug? = some bug) ↔
    p.Finds campaign.config program fuel bug := by
  have hfirst (result : IterationResult γ) (memory : μ) :
      (p.record result memory).report.firstBug? = p.bug? result := by
    rw [Report.firstBug?, Progress.bugs_record, hnew, List.nil_append]
    cases p.bug? result <;> rfl
  rw [Progress.finds_iff]
  constructor
  · rintro ⟨exploration, report, hexplore, hreport, hbug⟩
    obtain ⟨result, memory, hrun, hfault, ⟨-, rfl⟩ | ⟨⟨-, hleft⟩, -⟩⟩ :=
      exists_of_explore_succ hexplore hreport
    · obtain rfl := Except.ok.inj hreport
      exact ⟨result, memory, hrun, hfault, (hfirst result memory).symm.trans hbug⟩
    · exact absurd rfl hleft
  · rintro ⟨result, memory, hrun, hfault, hbug⟩
    rw [explore, hrun]
    simp only [hfault, if_true, ite_self]
    exact ⟨_, _, rfl, rfl, (hfirst result memory).trans hbug⟩

variable [LawfulRandomSource γ] {campaign program fuel}

/-- The last execution of an iteration is sound. -/
theorem Progress.Ready.sound_last {first p : Progress γ μ} (h : first.Ready p) (config : Config)
    (program : Program σ μ) (fuel : Nat) :
    (p.last config program fuel).iteration.Sound (p.nextIteration config) :=
  Execution.sound_run (Execution.settled_start program rfl) (h.sound config program) fuel

/-- The last execution of an iteration that no fault ends has counted its decisions. -/
theorem Progress.Ready.tracked_last {first p : Progress γ μ} (h : first.Ready p) {config : Config}
    (hfault : (p.last config program fuel).iteration.fault = none) :
    (p.last config program fuel).iteration.Tracked (p.nextIteration config) := by
  have hsound := h.sound_last config program fuel
  refine hsound.tracked fun haborted => ?_
  have hfaulty := hsound.fault haborted
  rw [hfault] at hfaulty
  cases hfaulty

/-- After an iteration that no fault ends, the campaign stands as at its beginning. -/
theorem Progress.Ready.next {first p : Progress γ μ} (h : first.Ready p)
    {result : IterationResult γ} {memory : μ} {config : Config}
    (hrun : program.run fuel (p.nextIteration config) = some (result, memory))
    (hfault : result.fault = none) : first.Ready (p.record result memory).advance := by
  obtain ⟨-, rfl, -⟩ := Progress.run_eq_some.mp hrun
  have htracked := h.tracked_last hfault
  have hrestarts := Strategy.restarts_prepare htracked.wellFormed
  refine ⟨hrestarts.wellFormed htracked.wellFormed, h.outermost,
    hrestarts.sameKind.trans (htracked.sameKind.trans h.sameKind), ?_,
    htracked.atRest.trans ?_⟩
  · refine hrestarts.clock.trans ?_
    have hmax : p.strategy.maxSteps = first.strategy.maxSteps := congrArg Clock.maxSteps h.clock
    exact congrArg (Clock.mk 0) (htracked.maxSteps.trans hmax)
  · exact (Monitors.sameAtRest_resetForIteration _).trans h.atRest

/-- Every bug that is reported was known before, or an iteration that begins ready finds it. -/
theorem mem_bugs_explore {first p : Progress γ μ} (h : first.Ready p) {budget : Nat}
    {exploration : Exploration μ} {report : Report}
    (hexplore : campaign.explore program fuel budget p = some exploration)
    (hreport : exploration.result = .ok report) {bug : BugReport} (hbug : bug ∈ report.bugs) :
    bug ∈ p.report.bugs ∨ ∃ q, first.Ready q ∧ q.Finds campaign.config program fuel bug := by
  induction budget generalizing p with
  | zero =>
    rw [explore] at hexplore
    obtain rfl := Option.some.inj hexplore
    obtain rfl := Except.ok.inj hreport
    exact .inl hbug
  | succ budget ih =>
    obtain ⟨result, memory, hrun, hfault, hnext⟩ := exists_of_explore_succ hexplore hreport
    have hrecorded (hmem : bug ∈ (p.record result memory).report.bugs) :
        bug ∈ p.report.bugs ∨ ∃ q, first.Ready q ∧ q.Finds campaign.config program fuel bug := by
      rw [Progress.bugs_record, List.mem_append, Option.mem_toList] at hmem
      exact hmem.imp_right fun hfound =>
        ⟨p, h, Progress.finds_iff.mpr ⟨result, memory, hrun, hfault, hfound⟩⟩
    obtain ⟨-, rfl⟩ | ⟨-, ⟨-, rfl⟩ | ⟨-, hexplore⟩⟩ := hnext
    · obtain rfl := Except.ok.inj hreport
      exact hrecorded hbug
    · obtain rfl := Except.ok.inj hreport
      exact hrecorded hbug
    · rcases ih (h.next hrun hfault) hexplore with hbefore | hfound
      · exact hrecorded hbefore
      · exact .inr hfound

/-! ### The beginning of a campaign -/

omit [LawfulRandomSource γ] in
/-- The beginning of a campaign. -/
def beginning (campaign : Campaign) (source : UInt64 → γ) : Progress γ μ :=
  .start (campaign.watched (campaign.config.strategy source)) campaign.registry

/-- The monitors are watched if there are any. -/
theorem watched_eq {γ : Type} (campaign : Campaign) (strategy : Strategy γ) :
    campaign.watched strategy = .watch (!campaign.monitors.isEmpty) strategy := by
  rw [watched, Strategy.watch]
  cases campaign.monitors.isEmpty <;> rfl

omit [LawfulRandomSource γ] in
/-- A campaign begins ready. -/
theorem ready_beginning (campaign : Campaign) (source : UInt64 → γ) :
    (campaign.beginning source : Progress γ μ).Ready (campaign.beginning source) := by
  obtain ⟨hwellFormed, hclock, -, hplain⟩ :=
    campaign.config.build_spec source campaign.config.selection campaign.config.seed
  have hstrategy : (campaign.beginning source : Progress γ μ).strategy =
      .watch (!campaign.monitors.isEmpty) (campaign.config.strategy source) :=
    campaign.watched_eq _
  refine ⟨?_, ?_, .refl _, ?_, .refl _⟩
  · rw [hstrategy, Strategy.wellFormed_watch]
    exact hwellFormed
  · rw [hstrategy]
    exact (Strategy.isOutermost_watch _ hplain).1
  · have hsteps := congrArg Clock.steps hclock
    rw [hstrategy, Strategy.clock, Strategy.steps_watch]
    exact congrArg (Clock.mk · _) hsteps

end Campaign

end ScheduleExplorer
