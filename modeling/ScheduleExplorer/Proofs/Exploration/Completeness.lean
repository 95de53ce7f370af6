import ScheduleExplorer.Proofs.Exploration.Campaigns
import ScheduleExplorer.Proofs.Exploration.Sequential

/-!
# What partial-order reduction keeps

Depth-first search finds every bug of a program. Partial-order search finds the bugs of the
schedules that the reduction keeps, and those alone: it never reports a bug that depth-first search
would miss, and it misses the bugs that no schedule of the reduction finds.

It does miss bugs. The creation of a resource is not a step of its own, so two creations never race,
although the index of a resource tells which one came first. The numbers of operations are given out
in the same way. With one operation there is no such order, and no bug is missed.
-/

namespace ScheduleExplorer

namespace DecisionTree

variable {ε : Type} {tree : DecisionTree ε}

/-- The schedules that partial-order search goes through. -/
def reduction (tree : DecisionTree ε) : List (Schedule ε) :=
  ((tree.truncate none).reduce {}).1

/-- Without a cut the paths of a tree are the same. -/
theorem path_truncate_none {indices : List Nat} {decisions : List Decision} {ending : Option ε} :
    (tree.truncate none).Path indices decisions ending ↔
      ∃ last, ending = some last ∧ tree.Path indices decisions last := by
  induction tree generalizing indices decisions with
  | leaf last =>
    constructor
    · intro h
      cases h
      exact ⟨last, rfl, .leaf last⟩
    · rintro ⟨last, rfl, h⟩
      cases h
      exact .leaf _
  | ask current query child ih =>
    have hwhole : (ask current query child).truncate none =
        .ask current query fun answer => (child answer).truncate none := rfl
    rw [hwhole]
    constructor
    · intro h
      cases h with
      | ask hanswer hrest =>
        obtain ⟨last, hlast, hpath⟩ := (ih _).mp hrest
        exact ⟨last, hlast, .ask hanswer hpath⟩
    · rintro ⟨last, hlast, h⟩
      cases h with
      | ask hanswer hrest => exact .ask hanswer ((ih _).mpr ⟨last, hlast, hrest⟩)

/-- Every schedule of the reduction is a path of the tree. -/
theorem exists_path_of_mem_reduction (htree : tree.IsProper) {schedule : Schedule ε}
    (h : schedule ∈ tree.reduction) :
    ∃ indices last, schedule.ending = some last ∧ tree.Path indices schedule.decisions last := by
  obtain ⟨indices, hpath⟩ := exists_path_of_mem_reduce (htree.truncate none) h
  obtain ⟨last, hlast, hpath⟩ := path_truncate_none.mp hpath
  exact ⟨indices, last, hlast, hpath⟩

/-- Every path of a sequential tree is a schedule of the reduction. -/
theorem mem_reduction_of_path (htree : tree.IsProper) (hsequential : tree.IsSequential)
    {indices : List Nat} {decisions : List Decision} {last : ε}
    (h : tree.Path indices decisions last) : ⟨decisions, some last⟩ ∈ tree.reduction :=
  mem_reduce_of_path (htree.truncate none) (hsequential.truncate none)
    (path_truncate_none.mpr ⟨last, rfl, h⟩) {}

end DecisionTree

namespace Campaign

variable {γ σ μ : Type} [RandomSource γ] {campaign : Campaign}
  {program : Program σ μ} {fuel : Nat}

/-- The campaign with another selection and another number of iterations. -/
def searching (selection : Selection) (iterations : Nat) (campaign : Campaign) : Campaign :=
  { campaign with config := { campaign.config with selection, iterations } }

variable (γ) in
/-- Some schedule of the program finds a bug. -/
def HasBug (campaign : Campaign) (program : Program σ μ) (fuel : Nat) : Prop :=
  ∃ indices decisions last, (campaign.tree γ program fuel).Path indices decisions last ∧
    last.HasFoundBug

variable (γ) in
/-- Some schedule that the reduction keeps finds a bug. -/
def ReductionHasBug (campaign : Campaign) (program : Program σ μ) (fuel : Nat) : Prop :=
  ∃ schedule ∈ (campaign.tree γ program fuel).reduction, ∃ last ∈ schedule.ending, last.HasFoundBug

/-- A bug of the reduction is a bug of the program. -/
theorem ReductionHasBug.hasBug (h : campaign.ReductionHasBug γ program fuel) :
    campaign.HasBug γ program fuel := by
  obtain ⟨schedule, hschedule, last, hlast, hbug⟩ := h
  obtain ⟨indices, ending, hending, hpath⟩ :=
    DecisionTree.exists_path_of_mem_reduction (campaign.isProper_tree γ program fuel) hschedule
  obtain rfl := Option.some.inj (hending.symm.trans hlast)
  exact ⟨indices, schedule.decisions, ending, hpath, hbug⟩

/-- If no body of a program spawns, a schedule of the reduction finds a bug whenever a schedule
does. -/
theorem HasBug.reductionHasBug (h : campaign.HasBug γ program fuel)
    (hprogram : program.NeverSpawns) : campaign.ReductionHasBug γ program fuel := by
  obtain ⟨indices, decisions, last, hpath, hbug⟩ := h
  have hsequential : (campaign.tree γ program fuel).IsSequential :=
    Execution.isSequential_unfold hprogram (Execution.settled_start program rfl) rfl _ fuel
  exact ⟨⟨decisions, some last⟩,
    DecisionTree.mem_reduction_of_path (campaign.isProper_tree γ program fuel) hsequential hpath,
    last, rfl, hbug⟩

variable [LawfulRandomSource γ]

/-- A campaign of depth-first search with enough iterations reports a bug if and only if a schedule
of the program finds one. -/
theorem exists_report_depthFirst (source : UInt64 → γ)
    (hends : campaign.Terminates γ program fuel) :
    ∃ enough, ∀ iterations, enough ≤ iterations → ∃ report,
      (campaign.searching .depthFirst iterations).Reports source program fuel report ∧
        (report.bugs ≠ [] ↔ campaign.HasBug γ program fuel) ∧
        (report.bugs = [] → report.isExhausted = true) := by
  have htree := campaign.isProper_tree γ program fuel
  have hexplored := DepthFirst.explore_eq_walks htree campaign.config.maxUnfairSteps 0
    ((campaign.tree γ program fuel).truncate none).walks.length
  rw [bounded_tree, if_pos le_rfl] at hexplored
  have hpath : ∀ walk ∈ ((campaign.tree γ program fuel).truncate none).walks,
      ∀ last ∈ walk.ending,
        (campaign.tree γ program fuel).Path walk.indices walk.decisions last := by
    intro walk hwalk last hlast
    obtain ⟨ending, hending, hpath⟩ := DecisionTree.path_truncate_none.mp
      (DecisionTree.mem_walks_iff.mp ⟨walk, hwalk, rfl, rfl, rfl⟩)
    obtain rfl := Option.some.inj (hending.symm.trans hlast)
    exact hpath
  refine ⟨((campaign.tree γ program fuel).truncate none).walks.length + 1,
    fun iterations henough => ?_⟩
  have hwell : ∀ schedule ∈ ((campaign.tree γ program fuel).truncate none).walks.map
      fun walk => (⟨walk.decisions, walk.ending⟩ : Schedule _),
      ∀ last ∈ schedule.ending, last.EndsWell := by
    intro schedule hschedule last hlast
    obtain ⟨walk, hwalk, rfl⟩ := List.mem_map.mp hschedule
    exact hends _ _ _ (hpath walk hwalk last hlast)
  obtain ⟨report, hreport, hbugs, hexhausted⟩ :=
    (campaign.searching .depthFirst iterations).exists_report Strategy.isSearch_depthFirst
      (fun _ => rfl) rfl rfl hexplored hwell (by rw [List.length_map]; exact henough)
  refine ⟨report, hreport, hbugs.trans ⟨?_, ?_⟩, hexhausted⟩
  · rintro ⟨schedule, hschedule, last, hlast, hbug⟩
    obtain ⟨walk, hwalk, rfl⟩ := List.mem_map.mp hschedule
    exact ⟨walk.indices, walk.decisions, last, hpath walk hwalk last hlast, hbug⟩
  · rintro ⟨indices, decisions, last, hfound, hbug⟩
    obtain ⟨walk, hwalk, -, rfl, hlast⟩ := DecisionTree.mem_walks_iff.mpr
      (DecisionTree.path_truncate_none.mpr ⟨last, rfl, hfound⟩)
    exact ⟨⟨walk.decisions, walk.ending⟩, List.mem_map_of_mem hwalk, last, hlast, hbug⟩

/-- A campaign of partial-order search with enough iterations reports a bug if and only if a
schedule of the reduction finds one. -/
theorem exists_report_dpor (source : UInt64 → γ)
    (hends : campaign.Terminates γ program fuel) :
    ∃ enough, ∀ iterations, enough ≤ iterations → ∃ report,
      (campaign.searching .dpor iterations).Reports source program fuel report ∧
        (report.bugs ≠ [] ↔ campaign.ReductionHasBug γ program fuel) ∧
        (report.bugs = [] → report.isExhausted = true) := by
  obtain ⟨final, hexplore⟩ :=
    Dpor.explore_eq_reduce (γ := γ) (campaign.isProper_tree γ program fuel)
      campaign.config.maxUnfairSteps
  rw [bounded_tree] at hexplore
  refine ⟨(campaign.tree γ program fuel).reduction.length + 1, fun iterations henough => ?_⟩
  have hexplored := hexplore (campaign.tree γ program fuel).reduction.length
  rw [DecisionTree.reduction, if_pos le_rfl, ← DecisionTree.reduction] at hexplored
  have hwell : ∀ schedule ∈ (campaign.tree γ program fuel).reduction,
      ∀ last ∈ schedule.ending, last.EndsWell := by
    intro schedule hschedule last hlast
    obtain ⟨indices, ending, hending, hpath⟩ :=
      DecisionTree.exists_path_of_mem_reduction (campaign.isProper_tree γ program fuel) hschedule
    obtain rfl := Option.some.inj (hending.symm.trans hlast)
    exact hends _ _ _ hpath
  exact (campaign.searching .dpor iterations).exists_report Strategy.isSearch_dpor
    (fun _ => rfl) rfl rfl hexplored hwell henough

/-- Let every schedule of a program end without a fault, and let there be enough iterations. Then
depth-first search reports a bug if and only if a schedule of the program finds one, and
partial-order search if and only if a schedule of the reduction does. If no body of the program
spawns, the two report bugs together. A search that reports no bug reports that nothing is left. -/
theorem searches_report_iff (source : UInt64 → γ)
    (hends : campaign.Terminates γ program fuel) :
    ∃ enough, ∀ iterations, enough ≤ iterations → ∃ searched reduced,
      (campaign.searching .depthFirst iterations).Reports source program fuel searched ∧
      (campaign.searching .dpor iterations).Reports source program fuel reduced ∧
      (searched.bugs ≠ [] ↔ campaign.HasBug γ program fuel) ∧
      (reduced.bugs ≠ [] ↔ campaign.ReductionHasBug γ program fuel) ∧
      (reduced.bugs ≠ [] → searched.bugs ≠ []) ∧
      (program.NeverSpawns → searched.bugs ≠ [] → reduced.bugs ≠ []) ∧
      (searched.bugs = [] → searched.isExhausted = true) ∧
      (reduced.bugs = [] → reduced.isExhausted = true) := by
  obtain ⟨enough, hsearched⟩ := exists_report_depthFirst source hends
  obtain ⟨more, hreduced⟩ := exists_report_dpor source hends
  refine ⟨max enough more, fun iterations henough => ?_⟩
  obtain ⟨searched, hreports, hbugs, hexhausted⟩ :=
    hsearched iterations ((le_max_left _ _).trans henough)
  obtain ⟨reduced, hreports', hbugs', hexhausted'⟩ :=
    hreduced iterations ((le_max_right _ _).trans henough)
  exact ⟨searched, reduced, hreports, hreports', hbugs, hbugs',
    fun hfound => hbugs.mpr (hbugs'.mp hfound).hasBug,
    fun hprogram hfound => hbugs'.mpr ((hbugs.mp hfound).reductionHasBug hprogram), hexhausted,
    hexhausted'⟩

/-- Two operations create a resource each, the main one after a turn of the other one, and the main
operation asserts that its resource is the first one. -/
def racing : Program Nat Unit where
  main := 0
  memory := ()
  resume _ position reply memory :=
    (match position, reply with
      | 0, _ => .call (.spawn "a" 4) 1
      | 1, _ => .call .yield 2
      | 2, _ => .call .createResource 3
      | 3, .resource id => .call (.assert (id.index = 0) "first") 5
      | 4, _ => .call .createResource 5
      | _, _ => .finish, memory)

/-- The standard settings without monitors. -/
def standard : Campaign where
  config := {}

/-- Every schedule of the racing program ends, and none with a fault. -/
theorem terminates_racing : standard.Terminates ChaChaSource racing 20 := by
  decide +kernel

/-- The racing program meets the conditions. -/
theorem searches_report_iff_racing :
    standard.Terminates ChaChaSource racing 20 ∧
      ∃ enough, ∀ iterations, enough ≤ iterations → ∃ searched reduced,
        (standard.searching .depthFirst iterations).Reports ChaChaSource.ofSeed racing 20 searched ∧
        (standard.searching .dpor iterations).Reports ChaChaSource.ofSeed racing 20 reduced ∧
        (searched.bugs ≠ [] ↔ standard.HasBug ChaChaSource racing 20) ∧
        (reduced.bugs ≠ [] ↔ standard.ReductionHasBug ChaChaSource racing 20) ∧
        (reduced.bugs ≠ [] → searched.bugs ≠ []) ∧
        (racing.NeverSpawns → searched.bugs ≠ [] → reduced.bugs ≠ []) ∧
        (searched.bugs = [] → searched.isExhausted = true) ∧
        (reduced.bugs = [] → reduced.isExhausted = true) :=
  ⟨terminates_racing, searches_report_iff ChaChaSource.ofSeed terminates_racing⟩

/-- Every schedule of the racing program ends without a fault and below the step bound. Depth-first
search reports its bug; partial-order search reports no bug, and that nothing is left. -/
theorem dpor_misses_bug_of_racing :
    standard.Terminates ChaChaSource racing 20 ∧
      (∀ indices decisions last, (standard.tree ChaChaSource racing 20).Path indices decisions last →
        last.iteration.phase ≠ .stopped .stepBoundReached) ∧
      ∃ searched reduced,
        (standard.searching .depthFirst 10).Reports ChaChaSource.ofSeed racing 20 searched ∧
        (standard.searching .dpor 10).Reports ChaChaSource.ofSeed racing 20 reduced ∧
        searched.bugs ≠ [] ∧ reduced.bugs = [] ∧ reduced.isExhausted = true := by
  refine ⟨terminates_racing, DecisionTree.forall_path_iff.mpr (by decide +kernel), ?_⟩
  exact ⟨_, _, ⟨_, rfl, rfl⟩, ⟨_, rfl, rfl⟩, by decide +kernel, rfl, rfl⟩

/-- The main operation begins another one, which begins a third one; after a yield it begins one
too, and that one asserts that it was registered before the third one. Nobody creates a resource. -/
def branching : Program Nat Unit where
  main := 0
  memory := ()
  resume id position _ memory :=
    (match position with
      | 0 => .call (.spawn "a" 3) 1
      | 1 => .call .yield 2
      | 2 => .call (.spawn "c" 4) 5
      | 3 => .call (.spawn "b" 5) 5
      | 4 => .call (.assert (id.index = 2) "second") 5
      | _ => .finish, memory)

/-- Operations are numbered in the order in which they are registered, which is no step either: of
the branching program, which creates no resource, partial-order search misses the bug too. -/
theorem dpor_misses_bug_of_branching :
    standard.Terminates ChaChaSource branching 30 ∧
      ∃ searched reduced,
        (standard.searching .depthFirst 20).Reports ChaChaSource.ofSeed branching 30 searched ∧
        (standard.searching .dpor 20).Reports ChaChaSource.ofSeed branching 30 reduced ∧
        searched.bugs ≠ [] ∧ reduced.bugs = [] ∧ reduced.isExhausted = true :=
  ⟨by decide +kernel, _, _, ⟨_, rfl, rfl⟩, ⟨_, rfl, rfl⟩, by decide +kernel, rfl, rfl⟩

end Campaign

end ScheduleExplorer
