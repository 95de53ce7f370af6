import ScheduleExplorer.Proofs.Exploration.DepthFirst
import ScheduleExplorer.Proofs.Exploration.PartialOrder
import ScheduleExplorer.Proofs.Exploration.Searching
import ScheduleExplorer.Proofs.Replay.Campaigns

/-!
# Campaigns that search

The iterations of a campaign with a search are the walks of the search through the decision tree of
the program. The tree is the same for every search. So a campaign with a search reports a bug if and
only if one of the schedules that the search explores finds one.
-/

namespace ScheduleExplorer

/-! ### The searches of campaigns -/

namespace Strategy

variable {γ τ : Type} [RandomSource γ] [Explorer τ]

/-- A search stays one when it watches the monitors. -/
theorem IsSearch.watch {search : τ → Strategy γ} (h : IsSearch search)
    (hplain : ∀ s, (search s).isPlain = true) (isWatched : Bool) :
    IsSearch fun s => watch isWatched (search s) where
  isFair s := by rw [isFair_watch, h.isFair]
  isCombined s := by rw [isCombined_watch, h.isCombined]
  atBound s := by rw [atBound_watch, h.atBound]
  answer current query s monitors hclean := by
    have hchecked : monitors.checkedFor isWatched (search s).isFair = monitors := by
      rw [h.isFair, Monitors.checkedFor, Bool.and_false, if_neg Bool.false_ne_true]
    rw [answer_watch (hplain s) isWatched current query hclean, hchecked, hclean,
      h.answer current query s monitors hclean]
    rfl
  answer_none := h.answer_none
  takeFault s := by rw [takeFault_watch, h.takeFault]
  notifyBug s := by
    have hinner := h.notifyBug s
    cases isWatched with
    | false => exact hinner
    | true => exact congrArg liveness hinner
  prepare s := by
    have hinner := h.prepare s
    cases isWatched with
    | false => exact hinner
    | true => simp only [Strategy.watch, if_true, Strategy.prepare, hinner]

/-- Depth-first search is a search. -/
theorem isSearch_depthFirst : IsSearch (depthFirst : DepthFirst → Strategy γ) where
  isFair _ := rfl
  isCombined _ := rfl
  atBound _ := rfl
  answer _ _ _ _ _ := rfl
  answer_none current ops s hnone := by
    have hempty : (Operation.enabledIds ops).isEmpty = true := by
      simpa [Operation.anyEnabled, Operation.enabledIds] using hnone
    simp [Explorer.answer, DepthFirst.answer, hempty]
  takeFault _ := rfl
  notifyBug _ := rfl
  prepare _ := rfl

/-- Partial-order search is a search. -/
theorem isSearch_dpor : IsSearch (dpor : Dpor γ → Strategy γ) where
  isFair _ := rfl
  isCombined _ := rfl
  atBound _ := rfl
  answer _ _ _ _ _ := rfl
  answer_none current ops s hnone := by simp [Explorer.answer, Dpor.answer, hnone]
  takeFault _ := rfl
  notifyBug _ := rfl
  prepare _ := rfl

end Strategy

/-! ### The schedules of a program -/

variable {γ σ μ : Type}

/-- A bug has ended the execution. -/
def Execution.HasFoundBug (ex : Execution γ σ μ) : Prop :=
  ∃ kind, ex.iteration.phase = .stopped (.bugFound kind)

/-- The execution is over, and no fault has ended it. -/
structure Execution.EndsWell (ex : Execution γ σ μ) : Prop where
  isOver : ex.isOver = true
  fault : ex.iteration.fault = none

instance (ex : Execution γ σ μ) : Decidable ex.EndsWell :=
  decidable_of_iff (ex.isOver = true ∧ ex.iteration.fault = none)
    ⟨fun h => ⟨h.1, h.2⟩, fun h => ⟨h.isOver, h.fault⟩⟩

namespace Campaign

/-- After an iteration no bug is known if none was known before and none has ended it. -/
theorem Progress.bugs_record_eq_nil {p : Progress γ μ} {ex : Execution γ σ μ} :
    (p.record ex.iteration.finish ex.memory).report.bugs = [] ↔
      p.report.bugs = [] ∧ ¬ ex.HasFoundBug := by
  have hfound : (∃ bug, p.bug? ex.iteration.finish = some bug) ↔ ex.HasFoundBug := by
    simp only [bug?_eq_some, Iteration.finish_outcome_eq_bugFound]
    constructor
    · rintro ⟨bug, kind, hphase, -⟩
      exact ⟨kind, hphase⟩
    · rintro ⟨kind, hphase⟩
      exact ⟨_, kind, hphase, rfl⟩
  rw [bugs_record, List.append_eq_nil_iff, Option.toList_eq_nil_iff, ← hfound, not_exists,
    Option.eq_none_iff_forall_ne_some]

/-- A result that counts as a bug was left behind by an execution that has found one. -/
theorem hasFoundBug_of_isBug {ex : Execution γ σ μ}
    (h : ex.iteration.finish.outcome.isBug = true) : ex.HasFoundBug := by
  cases houtcome : ex.iteration.finish.outcome with
  | bugFound kind => exact ⟨kind, Iteration.finish_outcome_eq_bugFound.mp houtcome⟩
  | completed => rw [houtcome] at h; cases h
  | stepBoundReached => rw [houtcome] at h; cases h

variable (γ) in
/-- The first iteration of a campaign under a search; the search is not a part of the decision
tree. -/
def origin (campaign : Campaign) : Iteration γ where
  strategy := .depthFirst { maxSteps := campaign.config.maxUnfairSteps }
  monitors := campaign.registry.resetForIteration
  depthBoundIsBug := campaign.config.depthBoundIsBug

variable [RandomSource γ]

variable (γ) in
/-- The decision tree of a program in a campaign; the kind of the sources is only a matter of its
type. -/
def tree (campaign : Campaign) (program : Program σ μ) (fuel : Nat) :
    DecisionTree (Execution γ σ μ) :=
  (Execution.start program (campaign.origin γ)).unfold program campaign.config.maxUnfairSteps fuel

variable (γ) in
/-- Every schedule of the program ends within the fuel, and none ends with a fault. -/
def Terminates (campaign : Campaign) (program : Program σ μ) (fuel : Nat) : Prop :=
  ∀ indices decisions last, (campaign.tree γ program fuel).Path indices decisions last →
    last.EndsWell

instance (campaign : Campaign) (program : Program σ μ) (fuel : Nat) :
    Decidable (campaign.Terminates γ program fuel) :=
  decidable_of_iff' _ DecisionTree.forall_path_iff

/-- The campaign ends with a report. -/
def Reports (campaign : Campaign) (source : UInt64 → γ) (program : Program σ μ) (fuel : Nat)
    (report : Report) : Prop :=
  ∃ exploration, campaign.runFrom source program fuel = some exploration ∧
    exploration.result = .ok report

variable {τ : Type} {search : τ → Strategy γ} {s : τ} {campaign : Campaign} {source : UInt64 → γ}
  {program : Program σ μ} {fuel : Nat} {p : Progress γ μ}

variable (γ) in
/-- The tree of a program is proper. -/
theorem isProper_tree (campaign : Campaign) (program : Program σ μ) (fuel : Nat) :
    (campaign.tree γ program fuel).IsProper :=
  Execution.isProper_unfold (Execution.settled_start program rfl) program _ fuel

/-- The step bound of the campaign cuts nothing off the tree. -/
theorem bounded_tree (campaign : Campaign) (program : Program σ μ) (fuel : Nat) :
    (campaign.tree γ program fuel).bounded campaign.config.maxUnfairSteps =
      (campaign.tree γ program fuel).truncate none := by
  have hsettled : (Execution.start program (campaign.origin γ)).Settled :=
    Execution.settled_start program rfl
  exact Execution.truncate_unfold hsettled program campaign.config.maxUnfairSteps fuel

/-- The progress of a campaign under a search: it stands as at the beginning. -/
structure Progress.Searching (search : τ → Strategy γ) (campaign : Campaign) (source : UInt64 → γ)
    (s : τ) (p : Progress γ μ) : Prop where
  ready : Ready (campaign.beginning source) p
  strategy : p.strategy = search s
  maxSteps : p.strategy.maxSteps = campaign.config.maxUnfairSteps

/-- The next iteration is the first one under the search as it stands. -/
theorem Progress.Searching.nextIteration (h : p.Searching search campaign source s) :
    p.nextIteration campaign.config =
      (campaign.origin γ).under (search s) p.coverage p.monitors.checks := by
  rw [Progress.nextIteration, h.strategy, h.ready.atRest.resetForIteration_eq]
  rfl

variable [LawfulRandomSource γ]

/-- After an iteration without a fault the search stands where its preparation leaves it. -/
theorem Progress.Searching.next (h : p.Searching search campaign source s)
    {result : IterationResult γ} {memory : μ}
    (hrun : program.run fuel (p.nextIteration campaign.config) = some (result, memory))
    (hfault : result.fault = none) {later : τ}
    (hstrategy : (p.record result memory).strategy.prepare.2 = search later) :
    Progress.Searching search campaign source later { p.record result memory with
      strategy := (p.record result memory).strategy.prepare.2
      iteration := p.iteration + 1 } := by
  have hready := h.ready.next hrun hfault
  have hmax := congrArg Clock.maxSteps (hready.clock.trans h.ready.clock.symm)
  exact ⟨hready, hstrategy, hmax.trans h.maxSteps⟩

variable [Explorer τ]

/-- The next iteration is the next walk of the search. -/
theorem Progress.Searching.last (h : p.Searching search campaign source s)
    (hsearch : Strategy.IsSearch search) (program : Program σ μ) (fuel : Nat) :
    ∃ last seen, (Explorer.walk (campaign.tree γ program fuel) s).1.ending = some last ∧
      p.last campaign.config program fuel =
        last.under (search (Explorer.walk (campaign.tree γ program fuel) s).2) seen
          p.monitors.checks := by
  have hclock : (search s).clock = ⟨0, campaign.config.maxUnfairSteps⟩ := by
    rw [← h.strategy, ← h.maxSteps, h.ready.clock]
    exact congrArg (Clock.mk 0) (congrArg Clock.maxSteps h.ready.clock).symm
  have hstart : (Execution.start program (campaign.origin γ)).SearchedBy search
      campaign.config.maxUnfairSteps s :=
    ⟨Execution.settled_start program rfl, rfl, h.strategy ▸ h.ready.wellFormed, hclock⟩
  obtain ⟨last, seen, hending, hrun, -⟩ :=
    hstart.run hsearch program fuel p.coverage p.monitors.checks
  refine ⟨last, seen, hending, ?_⟩
  rw [Progress.last, h.nextIteration, Execution.start_under, hrun]
  rfl

/-- A campaign with enough iterations reports a bug if and only if one was known before or one of
the schedules that its search explores finds one. Without a bug it reports that nothing is left, if
it has an iteration left to see it. -/
theorem Progress.Searching.explore (h : p.Searching search campaign source s)
    (hsearch : Strategy.IsSearch search) {count : Nat}
    {schedules : List (Schedule (Execution γ σ μ))} {final : τ}
    (hexplore : Explorer.explore (campaign.tree γ program fuel) count s = some (schedules, final))
    (hends : ∀ schedule ∈ schedules, ∀ last ∈ schedule.ending, last.EndsWell)
    {budget : Nat} (hbudget : schedules.length ≤ budget) :
    ∃ exploration report, campaign.explore program fuel budget p = some exploration ∧
      exploration.result = .ok report ∧
      (report.bugs = [] ↔ p.report.bugs = [] ∧
        ∀ schedule ∈ schedules, ∀ last ∈ schedule.ending, ¬ last.HasFoundBug) ∧
      (schedules.length < budget → report.bugs = [] → report.isExhausted = true) := by
  induction count generalizing s p schedules budget with
  | zero => cases hexplore
  | succ count ih =>
    obtain ⟨last, seen, hending, hlast⟩ := h.last hsearch program fuel
    generalize hwalk : Explorer.walk (campaign.tree γ program fuel) s = walked at hending hlast
    obtain ⟨schedule, after⟩ := walked
    dsimp only at hending hlast
    obtain ⟨more, later, rest, hprepare, rfl, hnone, hsome⟩ :=
      Explorer.exists_of_explore_succ hwalk hexplore
    have hwell : last.EndsWell := hends schedule List.mem_cons_self last hending
    set ended := last.under (search after) seen p.monitors.checks with hended
    have hrun : program.run fuel (p.nextIteration campaign.config) =
        some (ended.iteration.finish, ended.memory) :=
      Progress.run_eq_some.mpr ⟨hlast ▸ hwell.isOver, by rw [hlast], by rw [hlast]⟩
    have hfault : ended.iteration.finish.fault = none := hwell.fault
    have hknown : (p.record ended.iteration.finish ended.memory).report.bugs = [] ↔
        p.report.bugs = [] ∧ ¬ last.HasFoundBug := Progress.bugs_record_eq_nil
    have hstrategy : (p.record ended.iteration.finish ended.memory).strategy.prepare =
        (more, search later) := by
      have hmoved := hsearch.prepare after
      rw [hprepare] at hmoved
      exact hmoved
    obtain ⟨budget, rfl⟩ : ∃ fewer, budget = fewer + 1 :=
      Nat.exists_eq_add_one.mpr (by simp at hbudget; omega)
    simp only [List.forall_mem_cons, hending, Option.mem_some_iff, forall_eq']
    rw [Campaign.explore, hrun]
    simp only [hfault]
    split
    · next hstop =>
      have hbug : last.HasFoundBug := hasFoundBug_of_isBug (Bool.and_eq_true_iff.mp hstop).1
      exact ⟨_, _, rfl, rfl, hknown.trans (by simp [hbug]),
        fun _ hclean => absurd hbug (hknown.mp hclean).2⟩
    · split
      · next hlast =>
        have hover : rest = [] := by simpa [hlast] using hbudget
        exact ⟨_, _, rfl, rfl, hknown.trans (by simp [hover]),
          fun hleft => absurd hleft (by simp [hlast])⟩
      · cases more with
        | false =>
          rw [hstrategy]
          exact ⟨_, _, rfl, rfl, hknown.trans (by simp [(hnone rfl).1]), fun _ _ => rfl⟩
        | true =>
          have hnext := h.next hrun hfault (congrArg Prod.snd hstrategy)
          obtain ⟨exploration, report, hexplored, hreport, hbugs, hexhausted⟩ := ih hnext (hsome rfl)
            (fun schedule hschedule => hends schedule (List.mem_cons_of_mem _ hschedule))
            (Nat.le_of_succ_le_succ hbudget)
          rw [hstrategy] at hexplored ⊢
          refine ⟨exploration, report, hexplored, hreport, hbugs.trans ?_,
            fun hleft => hexhausted (Nat.lt_of_succ_lt_succ hleft)⟩
          rw [← and_assoc]
          exact and_congr_left' hknown

variable (campaign) in
/-- A campaign whose search ends within its iterations gives a report. There is a bug in it if and
only if one of the schedules that the search explores finds one, and otherwise nothing is left. -/
theorem exists_report {search : τ → Strategy γ} (hsearch : Strategy.IsSearch search)
    (hplain : ∀ s, (search s).isPlain = true) {s : τ}
    (hstrategy : campaign.config.strategy source = search s)
    (hmax : (search s).maxSteps = campaign.config.maxUnfairSteps) {count : Nat}
    {schedules : List (Schedule (Execution γ σ μ))} {final : τ}
    (hexplore : Explorer.explore (campaign.tree γ program fuel) count s = some (schedules, final))
    (hends : ∀ schedule ∈ schedules, ∀ last ∈ schedule.ending, last.EndsWell)
    (hbudget : schedules.length < campaign.config.iterations) :
    ∃ report, campaign.Reports source program fuel report ∧
      (report.bugs ≠ [] ↔ ∃ schedule ∈ schedules, ∃ last ∈ schedule.ending, last.HasFoundBug) ∧
      (report.bugs = [] → report.isExhausted = true) := by
  have hbeginning : (campaign.beginning source : Progress γ μ).strategy =
      .watch (!campaign.monitors.isEmpty) (search s) := by
    rw [← hstrategy]
    exact campaign.watched_eq _
  have hsearching : Progress.Searching
      (fun s => Strategy.watch (!campaign.monitors.isEmpty) (search s)) campaign source s
      (campaign.beginning source : Progress γ μ) :=
    ⟨campaign.ready_beginning source, hbeginning, by rw [hbeginning, Strategy.maxSteps_watch, hmax]⟩
  obtain ⟨exploration, report, hrun, hreport, hbugs, hexhausted⟩ :=
    hsearching.explore (hsearch.watch hplain _) hexplore hends hbudget.le
  refine ⟨report, ⟨exploration, hrun, hreport⟩, ?_, hexhausted hbudget⟩
  have hnone : (campaign.beginning source : Progress γ μ).report.bugs = [] := rfl
  rw [ne_eq, hbugs]
  simp [hnone]

end Campaign

end ScheduleExplorer
