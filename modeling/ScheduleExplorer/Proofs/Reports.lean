import Mathlib.Data.List.Forall2
import ScheduleExplorer.Proofs.Replay.Campaigns

/-!
# Reports account for iterations

A campaign that gives a report has run one iteration after another, each prepared by the strategy
after the one before, until a bug stopped it, the budget was used up or nothing was left
(`Campaign.Course`). The report was kept on the way. It has a row for each iteration, a bug for each
row with one, and statistics of the rows (`Report.AccountsFor`). Each iteration adds its own part,
so the report of a campaign accounts for its whole course.
-/

namespace ScheduleExplorer

/-! ### Statistics -/

namespace StepStats

/-- The statistics are the number, the least, the greatest and the sum of the given steps. The least
and the greatest of none are zero. -/
structure Summarizes (stats : StepStats) (steps : List Nat) : Prop where
  schedules : stats.schedules = steps.length
  minSteps : stats.minSteps = steps.min?.getD 0
  maxSteps : stats.maxSteps = steps.max?.getD 0
  totalSteps : stats.totalSteps = steps.sum

/-- Statistics of nothing. -/
theorem summarizes_nil : ({} : StepStats).Summarizes [] :=
  ⟨rfl, rfl, rfl, rfl⟩

/-- Recorded steps come behind the steps that were there. -/
theorem Summarizes.record {stats : StepStats} {steps : List Nat} (h : stats.Summarizes steps)
    (next : Nat) : (stats.record next).Summarizes (steps ++ [next]) where
  schedules := by simp [StepStats.record, h.schedules]
  minSteps := by
    cases steps with
    | nil => simp [StepStats.record, h.schedules]
    | cons first steps =>
      simp [StepStats.record, h.schedules, h.minSteps, List.min?_cons', -List.min?_cons]
  maxSteps := by
    cases steps with
    | nil => simp [StepStats.record, h.maxSteps]
    | cons first steps => simp [StepStats.record, h.maxSteps, List.max?_cons', -List.max?_cons]
  totalSteps := by simp [StepStats.record, h.totalSteps]

end StepStats

/-! ### Rows and bugs -/

variable {γ σ μ : Type}

/-- What a row tells of the result of an iteration. -/
structure IterationReport.Describes (row : IterationReport) (result : IterationResult γ) :
    Prop where
  outcome : row.outcome = result.outcome
  scheduledSteps : row.scheduledSteps = result.scheduledSteps
  isFair : row.isFair = result.strategy.isFair

/-- What a bug has in common with the row of the iteration that found it; its trace has as many
decisions as the iteration. -/
structure BugReport.Matches (bug : BugReport) (row : IterationReport) : Prop where
  outcome : row.outcome = .bugFound bug.kind
  iteration : bug.iteration = row.iteration
  scheduledSteps : bug.scheduledSteps = row.scheduledSteps
  trace : bug.trace.size = row.scheduledSteps

namespace Report

/-- The steps of the iterations of a class. -/
def stepsOf (isFair : Bool) (report : Report) : List Nat :=
  (report.iterations.filter (·.isFair = isFair)).map IterationReport.scheduledSteps

/-- The report accounts for the results of iterations, in their order. -/
structure AccountsFor (report : Report) (results : List (IterationResult γ)) : Prop where
  rows : List.Forall₂ IterationReport.Describes report.iterations results
  numbers : report.iterations.map IterationReport.iteration = List.range results.length
  fair : report.fair.Summarizes (report.stepsOf true)
  unfair : report.unfair.Summarizes (report.stepsOf false)
  stepBoundHits :
    report.stepBoundHits = report.iterations.countP (·.outcome = .stepBoundReached)
  bugs : List.Forall₂ BugReport.Matches report.bugs (report.iterations.filter (·.outcome.isBug))

variable {report : Report} {results : List (IterationResult γ)}

/-- There is a row for each iteration. -/
theorem AccountsFor.length_iterations (h : report.AccountsFor results) :
    report.iterations.length = results.length :=
  h.rows.length_eq

/-- The outcomes of the rows are those of the results. -/
theorem AccountsFor.outcomes (h : report.AccountsFor results) :
    report.iterations.map IterationReport.outcome = results.map IterationResult.outcome := by
  rw [← List.forall₂_eq_eq_eq]
  exact List.rel_map (fun _ _ hrow => hrow.outcome) h.rows

/-- Every schedule is of one of the two classes. -/
theorem AccountsFor.exploredSchedules (h : report.AccountsFor results) :
    report.exploredSchedules = report.iterations.length := by
  have hclasses := List.length_eq_length_filter_add (l := report.iterations) (·.isFair)
  rw [Report.exploredSchedules, h.fair.schedules, h.unfair.schedules, stepsOf, stepsOf,
    List.length_map, List.length_map, hclasses]
  simp

/-- Neither the coverage nor the exhaustion of a report has a part in its accounts. -/
theorem AccountsFor.seal (h : report.AccountsFor results) (coverage : CoverageCounts)
    (isExhausted : Bool) : { report with coverage, isExhausted }.AccountsFor results :=
  ⟨h.rows, h.numbers, h.fair, h.unfair, h.stepBoundHits, h.bugs⟩

/-- The steps of a class with one more row. -/
theorem stepsOf_recordIteration (isFair : Bool) (row : IterationReport) (report : Report) :
    (report.recordIteration row).stepsOf isFair =
      report.stepsOf isFair ++ if row.isFair = isFair then [row.scheduledSteps] else [] := by
  rw [stepsOf, recordIteration, List.filter_append, List.map_append, List.filter_singleton, stepsOf]
  by_cases hclass : row.isFair = isFair <;> simp [hclass]

/-- A report that accounts for some results accounts for one more with its row and its bugs. -/
theorem AccountsFor.append (h : report.AccountsFor results) {result : IterationResult γ}
    {row : IterationReport} {bugs : List BugReport} (hrow : row.Describes result)
    (hnumber : row.iteration = results.length)
    (hbugs : List.Forall₂ BugReport.Matches bugs ([row].filter (·.outcome.isBug))) :
    { report.recordIteration row with bugs := report.bugs ++ bugs }.AccountsFor
      (results ++ [result]) where
  rows := List.rel_append h.rows (.cons hrow .nil)
  numbers := by
    simp [recordIteration, h.numbers, hnumber, List.range_succ]
  fair := by
    change (report.recordIteration row).fair.Summarizes ((report.recordIteration row).stepsOf true)
    rw [stepsOf_recordIteration, recordIteration]
    cases row.isFair with
    | true => exact h.fair.record row.scheduledSteps
    | false => simpa using h.fair
  unfair := by
    change (report.recordIteration row).unfair.Summarizes
      ((report.recordIteration row).stepsOf false)
    rw [stepsOf_recordIteration, recordIteration]
    cases row.isFair with
    | true => simpa using h.unfair
    | false => exact h.unfair.record row.scheduledSteps
  stepBoundHits := by
    simp only [recordIteration, List.countP_append, List.countP_singleton, ← h.stepBoundHits]
    by_cases hbound : row.outcome = .stepBoundReached <;> simp [hbound]
  bugs := by
    simp only [recordIteration, List.filter_append]
    exact List.rel_append h.bugs hbugs

end Report

namespace Campaign

namespace Progress

/-- The row for the result of the iteration. -/
def row (result : IterationResult γ) (p : Progress γ μ) : IterationReport where
  iteration := p.iteration
  outcome := result.outcome
  scheduledSteps := result.scheduledSteps
  isFair := result.strategy.isFair

/-- The result of an iteration comes into the report with its row and its bug. -/
theorem report_record (result : IterationResult γ) (memory : μ) (p : Progress γ μ) :
    (p.record result memory).report =
      { p.report.recordIteration (p.row result) with
        bugs := p.report.bugs ++ (p.bug? result).toList } := by
  rw [record, row, bug?]
  cases result.outcome with
  | bugFound kind => rfl
  | completed => simp [Report.recordIteration]
  | stepBoundReached => simp [Report.recordIteration]

/-- The bug of an iteration matches its row. -/
theorem matches_bug? {result : IterationResult γ}
    (htrace : result.trace.size = result.scheduledSteps) (p : Progress γ μ) :
    List.Forall₂ BugReport.Matches (p.bug? result).toList
      ([p.row result].filter (·.outcome.isBug)) := by
  have houtcome : (p.row result).outcome = result.outcome := rfl
  rw [List.filter_singleton, houtcome, bug?]
  cases hbug : result.outcome with
  | bugFound kind => exact .cons ⟨hbug, rfl, rfl, htrace⟩ .nil
  | completed => exact .nil
  | stepBoundReached => exact .nil

/-- A report that accounts for the iterations so far accounts for the next one too. -/
theorem accountsFor_record {p : Progress γ μ} {results : List (IterationResult γ)}
    (h : p.report.AccountsFor results) (hnumber : p.iteration = results.length)
    {result : IterationResult γ} (htrace : result.trace.size = result.scheduledSteps) (memory : μ) :
    (p.record result memory).report.AccountsFor (results ++ [result]) := by
  rw [report_record]
  exact h.append ⟨rfl, rfl, rfl⟩ hnumber (matches_bug? htrace p)

end Progress

/-! ### The course of a campaign -/

/-- What came of an iteration of a campaign: its result, and whether the strategy had something left
when it was asked to prepare the next iteration; nothing if it was not asked. -/
structure Lap (γ : Type) where
  result : IterationResult γ
  more? : Option Bool

variable [RandomSource γ]

/-- The iteration that the strategy has prepared after a result. -/
def following (campaign : Campaign) (result : IterationResult γ) : Iteration γ where
  strategy := result.strategy.prepare.2
  monitors := result.monitors.resetForIteration
  coverage := result.coverage
  depthBoundIsBug := campaign.config.depthBoundIsBug

/-- The program ends the iteration with a result and without a fault. -/
def EndsIn (program : Program σ μ) (fuel : Nat) (it : Iteration γ) (result : IterationResult γ) :
    Prop :=
  ∃ memory, program.run fuel it = some (result, memory) ∧ result.fault = none

/-- The laps of a campaign with a positive budget from an iteration on. The strategy is asked for
another iteration unless a bug stops the campaign or the budget is used up. -/
inductive Course (campaign : Campaign) (program : Program σ μ) (fuel : Nat) :
    Nat → Iteration γ → List (Lap γ) → Prop where
  | stopped {budget : Nat} {it : Iteration γ} {result : IterationResult γ}
      (hends : EndsIn program fuel it result) (hstop : campaign.StopsAt result) :
      Course campaign program fuel (budget + 1) it [⟨result, none⟩]
  | spent {it : Iteration γ} {result : IterationResult γ} (hends : EndsIn program fuel it result)
      (hgoes : ¬ campaign.StopsAt result) : Course campaign program fuel 1 it [⟨result, none⟩]
  | exhausted {budget : Nat} {it : Iteration γ} {result : IterationResult γ}
      (hends : EndsIn program fuel it result) (hgoes : ¬ campaign.StopsAt result)
      (hnone : result.strategy.prepare.1 = false) :
      Course campaign program fuel (budget + 2) it [⟨result, some false⟩]
  | more {budget : Nat} {it : Iteration γ} {result : IterationResult γ} {laps : List (Lap γ)}
      (hends : EndsIn program fuel it result) (hgoes : ¬ campaign.StopsAt result)
      (hmore : result.strategy.prepare.1 = true)
      (hrest : Course campaign program fuel (budget + 1) (campaign.following result) laps) :
      Course campaign program fuel (budget + 2) it (⟨result, some true⟩ :: laps)

variable {campaign : Campaign} {program : Program σ μ} {fuel budget : Nat} {it : Iteration γ}
  {laps : List (Lap γ)} {p : Progress γ μ}

/-- A course has at least one lap and at most as many as the budget allows. -/
theorem Course.length_laps (h : Course campaign program fuel budget it laps) :
    1 ≤ laps.length ∧ laps.length ≤ budget := by
  induction h with
  | stopped => simp
  | spent => simp
  | exhausted => simp
  | more _ _ _ _ ih =>
    rw [List.length_cons]
    omega

/-- After a lap at which the campaign stops there is no other. -/
theorem Course.not_stopsAt (h : Course campaign program fuel budget it laps) :
    ∀ lap ∈ laps.dropLast, ¬ campaign.StopsAt lap.result := by
  induction h with
  | stopped => simp
  | spent => simp
  | exhausted => simp
  | more _ hgoes _ hrest ih =>
    have hlater : _ ≠ [] := List.ne_nil_of_length_pos hrest.length_laps.1
    rw [List.dropLast_cons_of_ne_nil hlater]
    exact List.forall_mem_cons.mpr ⟨hgoes, ih⟩

/-- If nothing was left after the last lap, the budget is not used up. -/
theorem Course.length_lt (h : Course campaign program fuel budget it laps)
    (hlast : ∃ lap ∈ laps.getLast?, lap.more? = some false) : laps.length < budget := by
  induction h with
  | stopped => simp at hlast
  | spent => simp at hlast
  | exhausted => simp
  | more _ _ _ hrest ih =>
    have hlater : _ ≠ [] := List.ne_nil_of_length_pos hrest.length_laps.1
    rw [List.getLast?_cons_of_ne_nil hlater] at hlast
    exact Nat.succ_lt_succ (ih hlast)

/-- A campaign between iterations: it stands as at its beginning, and its report accounts for the
iterations that it has run. -/
structure Progress.HasRun (first : Progress γ μ) (results : List (IterationResult γ))
    (p : Progress γ μ) : Prop where
  ready : first.Ready p
  accounts : p.report.AccountsFor results
  iteration : p.iteration = results.length
  isExhausted : p.report.isExhausted = false

variable [LawfulRandomSource γ] {first : Progress γ μ} {results : List (IterationResult γ)}

/-- The trace of an iteration without a fault has as many decisions as the strategy has made. -/
theorem Progress.HasRun.size_trace (h : first.HasRun results p) {result : IterationResult γ}
    {memory : μ} (hrun : program.run fuel (p.nextIteration campaign.config) = some (result, memory))
    (hfault : result.fault = none) : result.trace.size = result.scheduledSteps := by
  obtain ⟨-, rfl, -⟩ := Progress.run_eq_some.mp hrun
  exact (h.ready.tracked_last hfault).steps.symm

/-- An iteration without a fault comes to the iterations that the campaign has run. -/
theorem Progress.HasRun.advance (h : first.HasRun results p) {result : IterationResult γ}
    {memory : μ} (hrun : program.run fuel (p.nextIteration campaign.config) = some (result, memory))
    (hfault : result.fault = none) :
    first.HasRun (results ++ [result]) (p.record result memory).advance where
  ready := h.ready.next hrun hfault
  accounts := accountsFor_record h.accounts h.iteration (h.size_trace hrun hfault) memory
  iteration := by
    rw [List.length_append, ← h.iteration]
    rfl
  isExhausted := by
    change (p.record result memory).report.isExhausted = false
    rw [Progress.report_record]
    exact h.isExhausted

/-- A campaign that is over after an iteration has this one lap left. -/
theorem Progress.HasRun.exists_course_of_finish (h : first.HasRun results p)
    {result : IterationResult γ} {memory : μ} {report : Report}
    (hrun : program.run fuel (p.nextIteration campaign.config) = some (result, memory))
    (hfault : result.fault = none) (hover : campaign.StopsAt result ∨ budget = 0)
    (hreport : (p.record result memory).finish.result = .ok report) :
    ∃ laps, Course campaign program fuel (budget + 1) (p.nextIteration campaign.config) laps ∧
      report.AccountsFor (results ++ laps.map Lap.result) ∧
      (report.isExhausted = true ↔ ∃ lap ∈ laps.getLast?, lap.more? = some false) := by
  obtain rfl := Except.ok.inj hreport
  have hnext := h.advance hrun hfault
  refine ⟨[⟨result, none⟩], ?_, hnext.accounts.seal _ _,
    iff_of_false (Bool.eq_false_iff.mp hnext.isExhausted) (by simp)⟩
  by_cases hstop : campaign.StopsAt result
  · exact .stopped ⟨memory, hrun, hfault⟩ hstop
  · obtain rfl := hover.resolve_left hstop
    exact .spent ⟨memory, hrun, hfault⟩ hstop

/-- The report of a campaign accounts for the iterations before and for the course from there on. -/
theorem Progress.HasRun.exists_course (h : first.HasRun results p)
    {exploration : Exploration μ} {report : Report}
    (hexplore : campaign.explore program fuel (budget + 1) p = some exploration)
    (hreport : exploration.result = .ok report) :
    ∃ laps, Course campaign program fuel (budget + 1) (p.nextIteration campaign.config) laps ∧
      report.AccountsFor (results ++ laps.map Lap.result) ∧
      (report.isExhausted = true ↔ ∃ lap ∈ laps.getLast?, lap.more? = some false) := by
  induction budget generalizing p results with
  | zero =>
    obtain ⟨result, memory, hrun, hfault, ⟨hover, rfl⟩ | ⟨⟨-, hleft⟩, -⟩⟩ :=
      exists_of_explore_succ hexplore hreport
    · exact h.exists_course_of_finish hrun hfault hover hreport
    · exact absurd rfl hleft
  | succ budget ih =>
    obtain ⟨result, memory, hrun, hfault, hafter⟩ := exists_of_explore_succ hexplore hreport
    have hends : EndsIn program fuel (p.nextIteration campaign.config) result :=
      ⟨memory, hrun, hfault⟩
    have hnext := h.advance hrun hfault
    obtain ⟨hover, rfl⟩ | ⟨⟨hgoes, -⟩, ⟨hnone, rfl⟩ | ⟨hmore, hrest⟩⟩ := hafter
    · exact h.exists_course_of_finish hrun hfault hover hreport
    · obtain rfl := Except.ok.inj hreport
      exact ⟨[⟨result, some false⟩], .exhausted hends hgoes hnone, hnext.accounts.seal _ _,
        iff_of_true rfl (by simp)⟩
    · obtain ⟨laps, hcourse, haccounts, hexhausted⟩ := ih hnext hrest
      refine ⟨⟨result, some true⟩ :: laps, .more hends hgoes hmore hcourse, ?_, ?_⟩
      · rwa [List.append_assoc] at haccounts
      · have hlater : laps ≠ [] := List.ne_nil_of_length_pos hcourse.length_laps.1
        rw [hexhausted, List.getLast?_cons_of_ne_nil hlater]

/-- The report of a campaign tells its whole course: it accounts for every lap within the budget,
ends with a bug that stops the campaign, and says whether nothing was left. -/
structure Tells (campaign : Campaign) (report : Report) (laps : List (Lap γ)) : Prop
    extends report.AccountsFor (laps.map Lap.result) where
  nonempty : 1 ≤ report.iterations.length
  withinBudget : report.iterations.length ≤ campaign.config.iterations
  exploredSchedules : report.exploredSchedules = report.iterations.length
  stops : campaign.config.stopOnFirstBug = true →
    ∀ row ∈ report.iterations.dropLast, row.outcome.isBug = false
  isExhausted : report.isExhausted = true ↔ ∃ lap ∈ laps.getLast?, lap.more? = some false
  belowBudget : report.isExhausted = true →
    report.iterations.length < campaign.config.iterations

/-- The report of a campaign with valid settings tells the course of the campaign. -/
theorem tells_of_run {campaign : Campaign} {source : UInt64 → γ} {exploration : Exploration μ}
    {report : Report} (hvalid : campaign.config.validate = .ok ())
    (hrun : campaign.runFrom source program fuel = some exploration)
    (hreport : exploration.result = .ok report) :
    ∃ laps, Course campaign program fuel campaign.config.iterations
        ((campaign.beginning source : Progress γ μ).nextIteration campaign.config) laps ∧
      campaign.Tells report laps := by
  obtain ⟨budget, hbudget⟩ : ∃ budget, campaign.config.iterations = budget + 1 := by
    refine Nat.exists_eq_succ_of_ne_zero fun hzero => ?_
    simp [Config.validate, hzero] at hvalid
  have hbeginning : Progress.HasRun (campaign.beginning source) []
      (campaign.beginning source : Progress γ μ) :=
    ⟨campaign.ready_beginning source,
      ⟨.nil, rfl, StepStats.summarizes_nil, StepStats.summarizes_nil, rfl, .nil⟩, rfl, rfl⟩
  rw [runFrom, hbudget] at hrun
  obtain ⟨laps, hcourse, haccounts, hexhausted⟩ := hbeginning.exists_course hrun hreport
  rw [List.nil_append] at haccounts
  rw [← hbudget] at hcourse
  have hlength : report.iterations.length = laps.length := by
    rw [haccounts.length_iterations, List.length_map]
  refine ⟨laps, hcourse, haccounts, ?_, ?_, haccounts.exploredSchedules, ?_, hexhausted, ?_⟩
  · exact hlength ▸ hcourse.length_laps.1
  · exact hlength ▸ hcourse.length_laps.2
  · intro hstop row hrow
    -- A row before the last one is about a lap before the last one.
    have houtcome : row.outcome ∈ (laps.map fun lap => lap.result.outcome).dropLast := by
      have hmem := List.mem_map_of_mem hrow (f := IterationReport.outcome)
      rwa [List.map_dropLast, haccounts.outcomes, List.map_map] at hmem
    rw [← List.map_dropLast] at houtcome
    obtain ⟨lap, hlap, hsame⟩ := List.mem_map.mp houtcome
    rw [← hsame]
    exact Bool.eq_false_iff.mpr fun hbug => hcourse.not_stopsAt lap hlap ⟨hstop, hbug⟩
  · exact fun hnone => hlength ▸ hcourse.length_lt (hexhausted.mp hnone)

/-- A program that asserts that a coin shows heads. -/
def headsOnly : Program Nat Unit where
  main := 0
  memory := ()
  resume _ position reply memory :=
    (match position, reply with
      | 0, _ => .call .boolean 1
      | 1, .boolean heads => .call (.assert heads "tails") 2
      | _, _ => .finish, memory)
  hasher := some fun _ => {}

/-- Three iterations of depth-first search that do not stop at a bug. -/
def threeIterations : Campaign where
  config := { iterations := 3, selection := .depthFirst, stopOnFirstBug := false }

/-- Both sides of the coin are seen in two laps, and nothing is left for the third. -/
theorem tells_of_run_headsOnly : threeIterations.config.validate = .ok () ∧
    ∃ exploration report, threeIterations.run headsOnly 9 = some exploration ∧
      exploration.result = .ok report ∧
      report.iterations.map IterationReport.outcome = [.completed, .bugFound .assertion] ∧
      report.bugs.map BugReport.iteration = [1] ∧ report.isExhausted = true ∧
      ∃ laps, Course threeIterations headsOnly 9 3
          ((threeIterations.beginning ChaChaSource.ofSeed : Progress ChaChaSource Unit).nextIteration
            threeIterations.config) laps ∧ threeIterations.Tells report laps := by
  have hrun : threeIterations.run headsOnly 9 = some _ := rfl
  exact ⟨rfl, _, _, hrun, rfl, rfl, rfl, rfl, tells_of_run rfl hrun rfl⟩

end Campaign

end ScheduleExplorer
