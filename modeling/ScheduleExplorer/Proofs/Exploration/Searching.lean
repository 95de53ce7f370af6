import ScheduleExplorer.Proofs.Exploration.Unfolding
import ScheduleExplorer.Proofs.Replay.Recording

/-!
# Searching a program

A strategy that does nothing but search (`Strategy.IsSearch`) answers queries as an explorer does
and minds neither monitors nor bugs. Under such a strategy a run of a program is a walk through its
decision tree, and ends in the leaf of the walk.
-/

namespace ScheduleExplorer

variable {γ σ μ τ : Type} [RandomSource γ] [Explorer τ]

/-- Strategies that do nothing but search, as an explorer does. -/
structure Strategy.IsSearch (search : τ → Strategy γ) : Prop where
  isFair : ∀ s, (search s).isFair = false
  isCombined : ∀ s, (search s).isCombined = false
  atBound : ∀ s, (search s).atBound = Explorer.atBound s
  answer : ∀ current query s monitors, monitors.violation = none →
    (search s).answer current query monitors =
      ((Explorer.answer current query s).1, search (Explorer.answer current query s).2, monitors)
  answer_none : ∀ current ops (s : τ), Operation.anyEnabled ops = false →
    Explorer.answer current (.operation ops) s = (none, s)
  takeFault : ∀ s, (search s).takeFault = (none, search s)
  notifyBug : ∀ s, (search s).notifyBug = search s
  prepare : ∀ s, (search s).prepare = ((Explorer.prepare s).1, search (Explorer.prepare s).2)

/-- How a search takes an execution on: as it goes on alone, or with the answer of the search. -/
inductive Prospect.TakenBy (search : τ → Strategy γ) (s : τ) (coverage : Coverage)
    (checks : Nat) : Prospect γ σ μ → Execution γ σ μ → Prop where
  | alone (after : Execution γ σ μ) :
      TakenBy search s coverage checks (.alone after) (after.under (search s) coverage checks)
  | asking {current : Operation} {query : Query} {next : query.Answer → Execution γ σ μ}
      {value : query.Answer} {later : τ} (hbound : Explorer.atBound s = false)
      (hanswer : Explorer.answer current query s = (some value, later)) :
      TakenBy search s coverage checks (.asking current query next)
        ((next value).under (search later) coverage checks)

variable {search : τ → Strategy γ} {s : τ} {coverage : Coverage} {checks : Nat}

namespace Iteration

variable {it : Iteration γ}

omit [RandomSource γ] in
/-- A search ends an iteration at its bound. -/
theorem cutOff_under [RandomSource γ] (h : Strategy.IsSearch search)
    (hsteps : (search s).steps = it.trace.size) :
    (it.under (search s) coverage checks).endAtBound =
      it.cutOff.under (search s) coverage checks := by
  have hfair : (it.under (search s) coverage checks).strategy.isFair = false := h.isFair s
  have hbound : (it.under (search s) coverage checks).strategy.steps = it.trace.size := hsteps
  simp only [endAtBound, hfair, Bool.false_eq_true, if_false, hbound, cutOff]
  change (if it.depthBoundIsBug then _ else _) = _
  split
  · exact reportBug_under coverage checks it (h.notifyBug s) _ _
  · exact stop_under coverage checks it _ _

/-- A search is consulted. -/
theorem consulted_under (h : Strategy.IsSearch search) {op : Operation}
    (hop : it.operation? it.current = some op) (hclean : it.monitors.violation = none)
    (query : Query) :
    (it.under (search s) coverage checks).Consulted query
      (.ok (some (Explorer.answer op query s).1),
        it.under (search (Explorer.answer op query s).2) coverage checks) :=
  .answered hop (h.answer op query s _ hclean) hclean (h.takeFault _)

end Iteration

namespace Execution

variable [LawfulRandomSource γ] {ex : Execution γ σ μ} {maxSteps : Nat}

/-- A search stands where an execution does: it has taken the recorded decisions. -/
structure SearchedBy (search : τ → Strategy γ) (maxSteps : Nat) (s : τ) (ex : Execution γ σ μ) :
    Prop where
  settled : ex.Settled
  clean : ex.iteration.monitors.violation = none
  wellFormed : (search s).WellFormed
  clock : (search s).clock = ⟨ex.iteration.trace.size, maxSteps⟩

omit [LawfulRandomSource γ] in
/-- A search is at its bound after as many decisions. -/
theorem SearchedBy.atBound_eq (h : ex.SearchedBy search maxSteps s)
    (hsearch : Strategy.IsSearch search) :
    (search s).atBound = boundReached ex.iteration.trace.size maxSteps := by
  rw [Strategy.atBound_eq_of_not_combined (hsearch.isCombined s), h.clock]
  rfl

/-- The answer of a search to a query that can be answered. -/
theorem SearchedBy.exists_answer (h : ex.SearchedBy search maxSteps s)
    (hsearch : Strategy.IsSearch search) {op : Operation} {query : Query}
    (hquery : query.IsAskedBy op) (hsome : query.alternatives ≠ []) :
    ∃ value later, Explorer.answer op query s = (some value, later) ∧
      value ∈ query.alternatives ∧ (search later).WellFormed ∧
      (search later).clock = (search s).clock.tick true := by
  have hanswered := Strategy.answered hquery h.wellFormed ex.iteration.monitors
  rw [hsearch.answer op query s _ h.clean] at hanswered
  generalize Explorer.answer op query s = result at hanswered
  obtain ⟨value, later⟩ := result
  cases value with
  | none =>
    rcases hanswered.none rfl with hnil | hfault | hviolated
    · exact absurd hnil hsome
    · rw [hsearch.takeFault] at hfault
      cases hfault
    · rw [h.clean] at hviolated
      cases hviolated
  | some value =>
    exact ⟨value, later, rfl, hanswered.mem value rfl, hanswered.wellFormed, hanswered.clock⟩

omit [LawfulRandomSource γ] in
/-- A turn that is given out or withheld without a fault. -/
theorem reschedule_ok {next : Option OperationId} {after : Iteration γ}
    (h : ex.iteration.scheduleNext = (.ok next, after)) :
    ex.reschedule = { ex with iteration := after } := by
  rw [reschedule, h]

omit [LawfulRandomSource γ] in
/-- A turn that is withheld because of a fault. -/
theorem reschedule_error {fault : Fault} {after : Iteration γ}
    (h : ex.iteration.scheduleNext = (.error fault, after)) :
    ex.reschedule = { ex with iteration := after.abort fault } := by
  rw [reschedule, h]

/-- A search takes an execution on when it is asked for the next turn. -/
theorem SearchedBy.consulting (h : ex.SearchedBy search maxSteps s)
    (hsearch : Strategy.IsSearch search) (hfar : (search s).atBound = false) {op : Operation}
    (hop : ex.iteration.enableWaiting.operation? ex.iteration.enableWaiting.current = some op)
    (hopen : (ex.under (search s) coverage checks).iteration.isRunning = true ∧
      (ex.under (search s) coverage checks).iteration.operations ≠ [])
    (hleft : (ex.under (search s) coverage checks).iteration.enableWaiting.operations.all
      (·.status.isCompleted) = false) :
    Prospect.TakenBy search s coverage checks
      (if Operation.anyEnabled ex.iteration.enableWaiting.operations then
        .asking op (.operation ex.iteration.enableWaiting.operations) fun next =>
          { ex with iteration := ex.iteration.enableWaiting.schedule next }
      else .alone { ex with iteration := ex.iteration.enableWaiting.endWithoutChoice })
      (ex.under (search s) coverage checks).reschedule := by
  have hclean : ex.iteration.enableWaiting.monitors.violation = none := h.clean
  have hquery := h.settled.isNumbered.enableWaiting.isAskedBy hop
  have hconsulted : (ex.iteration.enableWaiting.under (search s) coverage checks).Consulted
      (.operation ex.iteration.enableWaiting.operations) _ :=
    Iteration.consulted_under hsearch hop hclean _
  split
  · next hsome =>
    have hpossible : (Query.operation ex.iteration.enableWaiting.operations).alternatives ≠ [] := by
      simpa [Operation.anyEnabled, Query.alternatives, Operation.enabledIds] using hsome
    obtain ⟨value, later, hanswer, hvalue, -, -⟩ := h.exists_answer hsearch hquery hpossible
    obtain ⟨chosen, hchosen, henabled⟩ :=
      h.settled.isNumbered.enableWaiting.operation?_eq_some hvalue
    rw [hanswer] at hconsulted
    have hnext : (ex.under (search s) coverage checks).iteration.scheduleNext =
        (.ok (some value), (ex.iteration.enableWaiting.under (search later) coverage
          checks).schedule value) :=
      Iteration.Scheduled.eq
        (.consulted hfar hconsulted (.scheduled hchosen henabled) hopen hleft)
    rw [reschedule_ok hnext]
    exact .asking ((hsearch.atBound s).symm.trans hfar) hanswer
  · next hnone =>
    rw [hsearch.answer_none op _ s (Bool.eq_false_iff.mpr hnone)] at hconsulted
    have hnext : (ex.under (search s) coverage checks).iteration.scheduleNext =
        (.ok none, (ex.iteration.enableWaiting.under (search s) coverage
          checks).endWithoutChoice) :=
      Iteration.Scheduled.eq (.consulted hfar hconsulted .unanswered hopen hleft)
    rw [reschedule_ok hnext, Iteration.endWithoutChoice_under coverage checks _
      (hsearch.notifyBug s)]
    exact .alone _

/-- A search takes an execution on when the turn is passed on. -/
theorem SearchedBy.scheduling (h : ex.SearchedBy search maxSteps s)
    (hsearch : Strategy.IsSearch search) (hrunning : ex.iteration.isRunning = true) :
    (ex.scheduling maxSteps).TakenBy search s coverage checks
      (ex.under (search s) coverage checks).reschedule := by
  have hat := h.atBound_eq hsearch
  have hgoesOn : (ex.under (search s) coverage checks).iteration.isRunning = true := hrunning
  have hlists : (ex.under (search s) coverage checks).iteration.operations =
      ex.iteration.operations := rfl
  rw [Execution.scheduling]
  split
  · next hempty =>
    have hnext : (ex.under (search s) coverage checks).iteration.scheduleNext =
        (.error .emptyOperationSet, (ex.under (search s) coverage checks).iteration) := by
      simp only [Iteration.scheduleNext, hgoesOn, hlists, hempty, Bool.not_true, Bool.false_eq_true,
        if_false, if_true]
    rw [reschedule_error hnext]
    exact .alone _
  · next hsome =>
    have hopen : (ex.under (search s) coverage checks).iteration.isRunning = true ∧
        (ex.under (search s) coverage checks).iteration.operations ≠ [] :=
      ⟨hrunning, by rw [hlists]; simpa using hsome⟩
    split
    · next hcompleted =>
      have hnext : (ex.under (search s) coverage checks).iteration.scheduleNext =
          (.ok none,
            (ex.under (search s) coverage checks).iteration.enableWaiting.stop .completed) :=
        Iteration.Scheduled.eq (.completed hcompleted hopen)
      have hunder := Iteration.stop_under coverage checks ex.iteration.enableWaiting (search s)
        .completed
      rw [reschedule_ok hnext]
      exact hunder ▸ .alone _
    · next hleft =>
      have hleft' : (ex.under (search s) coverage checks).iteration.enableWaiting.operations.all
          (·.status.isCompleted) = false := Bool.eq_false_iff.mpr hleft
      split
      · next hbound =>
        have hreached : (search s).atBound = true := hat.trans hbound
        have hnext : (ex.under (search s) coverage checks).iteration.scheduleNext =
            (.ok none, (ex.under (search s) coverage checks).iteration.enableWaiting.endAtBound) :=
          Iteration.Scheduled.eq (.atBound hreached hopen hleft')
        have hsteps : (search s).steps = ex.iteration.enableWaiting.trace.size :=
          congrArg Clock.steps h.clock
        have hunder : (ex.iteration.enableWaiting.under (search s) coverage checks).endAtBound = _ :=
          Iteration.cutOff_under hsearch hsteps
        rw [reschedule_ok hnext]
        exact hunder ▸ .alone _
      · next hbound =>
        have hfar : (search s).atBound = false := hat.trans (Bool.eq_false_iff.mpr hbound)
        split
        · next hnone =>
          have hunknown : (ex.under (search s) coverage checks).iteration.enableWaiting.operation?
              (ex.under (search s) coverage checks).iteration.enableWaiting.current = none := hnone
          have hfar' : (ex.under (search s) coverage checks).iteration.enableWaiting.strategy.atBound =
              false := hfar
          have hnext : (ex.under (search s) coverage checks).iteration.scheduleNext =
              (.error (.unknownOperation ex.iteration.enableWaiting.current),
                ex.iteration.enableWaiting.under (search s) coverage checks) := by
            have hlist : (ex.under (search s) coverage checks).iteration.operations.isEmpty = false :=
              List.isEmpty_eq_false_iff.mpr hopen.2
            simp only [Iteration.scheduleNext, hgoesOn, hlist, hleft', hfar', Bool.not_true,
              Bool.false_eq_true, if_false, (Iteration.Consulted.unknown hunknown).eq]
            rfl
          rw [reschedule_error hnext]
          exact .alone _
        · next op hop =>
          exact h.consulting hsearch hfar hop hopen hleft'

/-- A search takes an execution on when a value is asked for. -/
theorem SearchedBy.choosing (h : ex.SearchedBy search maxSteps s)
    (hsearch : Strategy.IsSearch search) (hrunning : ex.iteration.isRunning = true)
    (id : OperationId) (next : σ) {query : Query} (hquery : query.IsValue)
    (wrap : query.Answer → Reply) :
    (ex.choosing maxSteps id next query wrap).TakenBy search s coverage checks
      ((ex.under (search s) coverage checks).choose id next query wrap) := by
  have hat := h.atBound_eq hsearch
  have hgoesOn : (ex.under (search s) coverage checks).iteration.isRunning = true := hrunning
  rw [Execution.choosing]
  split
  · next hbound =>
    have hreached : (search s).atBound = true := hat.trans hbound
    have hchosen : (ex.under (search s) coverage checks).iteration.choose query =
        (.ok none, (ex.under (search s) coverage checks).iteration.endAtBound) :=
      Iteration.Chosen.eq (.atBound hreached hgoesOn)
    have hunder : (ex.iteration.under (search s) coverage checks).endAtBound = _ :=
      Iteration.cutOff_under hsearch (congrArg Clock.steps h.clock)
    rw [Execution.choose, hchosen]
    exact hunder ▸ .alone _
  · next hbound =>
    have hfar : (search s).atBound = false := hat.trans (Bool.eq_false_iff.mpr hbound)
    split
    · next hnone =>
      have hunknown : (ex.under (search s) coverage checks).iteration.operation?
          (ex.under (search s) coverage checks).iteration.current = none := hnone
      have hfar' : (ex.under (search s) coverage checks).iteration.strategy.atBound = false := hfar
      have hchosen : (ex.under (search s) coverage checks).iteration.choose query =
          (.error (.unknownOperation ex.iteration.current),
            (ex.under (search s) coverage checks).iteration) := by
        simp only [Iteration.choose, hgoesOn, hfar', Bool.not_true, Bool.false_eq_true, if_false,
          (Iteration.Consulted.unknown hunknown).eq]
        rfl
      rw [Execution.choose, hchosen]
      exact .alone _
    · next op hop =>
      obtain ⟨value, later, hanswer, -, -, -⟩ :=
        h.exists_answer hsearch (hquery.isAskedBy op) hquery.alternatives_ne_nil
      have hconsulted : (ex.iteration.under (search s) coverage checks).Consulted query _ :=
        Iteration.consulted_under hsearch hop h.clean query
      rw [hanswer] at hconsulted
      have hchosen : (ex.under (search s) coverage checks).iteration.choose query =
          (.ok (some value), { ex.iteration.under (search later) coverage checks with
            trace := ex.iteration.trace.push (query.decision value) }) :=
        Iteration.Chosen.eq (.given hfar hgoesOn hconsulted)
      rw [Execution.choose, hchosen]
      exact .asking ((hsearch.atBound s).symm.trans hfar) hanswer

/-- A search takes an execution on after every turn. -/
theorem SearchedBy.settle {turn : Turn γ σ μ} (h : turn.execution.SearchedBy search maxSteps s)
    (hsearch : Strategy.IsSearch search) (hturn : turn.Settled)
    (hrunning : turn.execution.iteration.isRunning = true) :
    (turn.prospect maxSteps).TakenBy search s coverage checks
      (turn.under (search s) coverage checks).settle := by
  cases turn with
  | quiet ex => exact .alone _
  | point ex => exact SearchedBy.scheduling h hsearch hrunning
  | choice id next query wrap ex =>
    exact SearchedBy.choosing h hsearch hrunning id next hturn.2.2 wrap
  | bug kind message ex =>
    have hreported := Iteration.reportBug_under coverage checks ex.iteration (hsearch.notifyBug s)
      kind message
    have hsettled : (Turn.under (search s) coverage checks (.bug kind message ex)).settle =
        { ex with iteration := ex.iteration.reportBug kind message }.under (search s) coverage
          checks :=
      congrArg (fun it => { ex with iteration := it }) hreported
    rw [hsettled]
    exact .alone _
  | fault cause ex => exact .alone _

omit [RandomSource γ] [LawfulRandomSource γ] [Explorer τ] in
/-- A search stands where an execution goes on alone. -/
theorem SearchedBy.takenOn {before : Execution γ σ μ} (h : before.SearchedBy search maxSteps s)
    (htaken : before.TakenOn [] ex) : ex.SearchedBy search maxSteps s := by
  have hsize : ex.iteration.trace.size = before.iteration.trace.size := htaken.size_trace
  refine ⟨htaken.settled, htaken.violation.trans h.clean, h.wellFormed, ?_⟩
  rw [h.clock, hsize]

/-- A search stands where an execution goes on with its answer. -/
theorem SearchedBy.answered {before : Execution γ σ μ} (h : before.SearchedBy search maxSteps s)
    (hsearch : Strategy.IsSearch search) {op : Operation} {query : Query} {value : query.Answer}
    {later : τ} (hquery : query.IsAskedBy op)
    (hanswer : Explorer.answer op query s = (some value, later))
    (htaken : before.TakenOn [query.decision value] ex) : ex.SearchedBy search maxSteps later := by
  have hanswered := Strategy.answered hquery h.wellFormed before.iteration.monitors
  rw [hsearch.answer op query s _ h.clean, hanswer] at hanswered
  have hsize : ex.iteration.trace.size = before.iteration.trace.size + 1 := htaken.size_trace
  refine ⟨htaken.settled, htaken.violation.trans h.clean, hanswered.wellFormed, ?_⟩
  rw [hanswered.clock, h.clock, hsize]
  rfl

/-- Under a search a run ends in the leaf of a walk through the tree of the execution. -/
theorem SearchedBy.run (h : ex.SearchedBy search maxSteps s) (hsearch : Strategy.IsSearch search)
    (program : Program σ μ) (fuel : Nat) (coverage : Coverage) (checks : Nat) :
    ∃ last seen, (Explorer.walk (ex.unfold program maxSteps fuel) s).1.ending = some last ∧
      (ex.under (search s) coverage checks).run program fuel =
        last.under (search (Explorer.walk (ex.unfold program maxSteps fuel) s).2) seen checks ∧
      last.SearchedBy search maxSteps (Explorer.walk (ex.unfold program maxSteps fuel) s).2 := by
  induction fuel generalizing ex s coverage with
  | zero => exact ⟨ex, coverage, rfl, rfl, h⟩
  | succ fuel ih =>
    obtain ⟨recorded, hunder⟩ := turn?_under (search s) coverage checks program ex
    rw [Execution.run, step_eq_settle, hunder, unfold]
    cases hturn : ex.turn? program with
    | none => exact ⟨ex, coverage, rfl, rfl, h⟩
    | some turn =>
      obtain ⟨hrunning, hof⟩ := isOf_turn hturn
      have hsame := hof.sameRun
      have hsettled := h.settled.turn hturn
      have hbefore : turn.execution.SearchedBy search maxSteps s :=
        h.takenOn ⟨hsettled.execution, by rw [hsame.trace, List.append_nil], hsame.violation⟩
      have htaken : (turn.prospect maxSteps).TakenBy search s recorded checks _ :=
        hbefore.settle hsearch hsettled (hsame.isRunning.trans hrunning)
      have hahead := isOf_turn_prospect h.settled hturn maxSteps
      simp only [Option.map_some]
      generalize turn.prospect maxSteps = prospect at htaken hahead ⊢
      generalize (turn.under (search s) recorded checks).settle = after at htaken ⊢
      cases htaken with
      | alone after => exact ih (h.takenOn hahead) recorded
      | asking hbound hanswer =>
        have hnext := ih (h.answered hsearch hahead.isAskedBy hanswer (hahead.takenOn _)) recorded
        simp only [Explorer.walk, hbound, Bool.false_eq_true, if_false, hanswer]
        exact hnext

end Execution

end ScheduleExplorer
