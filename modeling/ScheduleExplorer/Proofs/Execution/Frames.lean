import ScheduleExplorer.Proofs.Dpor.Marks
import ScheduleExplorer.Proofs.Execution.Driver
import ScheduleExplorer.Proofs.Execution.Letters

/-!
# The frames of a search

An iteration under partial-order reduction has one frame for every turn that it has given out. A step
that passes the turn on enters a frame, and any other step leaves the frames alone but for the values
in them (`Execution.FrameStep`).
-/

namespace ScheduleExplorer

variable {γ σ μ : Type} [RandomSource γ]

namespace Iteration

/-- The iteration is under a search that has a frame for every turn, and no violation is recorded. -/
structure Searches (s : Dpor γ) (it : Iteration γ) : Prop where
  search : it.strategy.dpor? = some s
  clean : it.monitors.violation = none
  steps : s.marks.length = it.operationSteps

section Searches

variable {it : Iteration γ} {s : Dpor γ}

omit [RandomSource γ] in
/-- The search goes on in an iteration that has seen as many turns. -/
theorem Searches.of_same {later : Iteration γ} (h : it.Searches s)
    (hstrategy : later.strategy.dpor? = some s) (hmonitors : later.monitors = it.monitors)
    (hsteps : later.operationSteps = it.operationSteps) : later.Searches s :=
  ⟨hstrategy, hmonitors ▸ h.clean, hsteps ▸ h.steps⟩

omit [RandomSource γ] in
/-- An ending leaves the search alone. -/
theorem Searches.stop (h : it.Searches s) (outcome : Outcome) : (it.stop outcome).Searches s := by
  refine h.of_same ?_ (monitors_stop _ _) (operationSteps_stop _ _)
  rw [Iteration.stop]
  split <;> exact h.search

omit [RandomSource γ] in
/-- A bug leaves the search alone, which takes no notice of it. -/
theorem Searches.reportBug (h : it.Searches s) (kind : BugKind) (message : String) :
    (it.reportBug kind message).Searches s := by
  refine h.of_same ?_ (monitors_reportBug _ _ _) (operationSteps_reportBug _ _ _)
  rw [Iteration.reportBug]
  split
  · exact Strategy.dpor?_notifyBug h.search
  · exact h.search

omit [RandomSource γ] in
/-- The end at the step bound leaves the search alone. -/
theorem Searches.endAtBound (h : it.Searches s) : it.endAtBound.Searches s := by
  have hunfair := Strategy.isFair_of_dpor? h.search
  simp only [Iteration.endAtBound, hunfair, Bool.false_eq_true, if_false]
  split
  · exact h.reportBug _ _
  · exact h.stop _

omit [RandomSource γ] in
/-- The end without a choice leaves the search alone. -/
theorem Searches.endWithoutChoice (h : it.Searches s) : it.endWithoutChoice.Searches s := by
  rw [Iteration.endWithoutChoice]
  split
  · exact h.reportBug _ _
  · exact h.stop _

/-- A consultation asks the search, unless nobody has the turn. -/
theorem Searches.consulted (h : it.Searches s) {query : Query}
    {result : Except Fault (Option (Option query.Answer)) × Iteration γ}
    (hresult : Consulted query it result) :
    (∃ fault, result = (.error fault, it)) ∨ ∃ op strategy,
      strategy.dpor? = some (s.answer op query).2 ∧
      result = (.ok (some (s.answer op query).1), { it with strategy }) := by
  cases hresult with
  | unknown => exact .inl ⟨_, rfl⟩
  | @violated op _ _ _ _ _ hanswer hviolation =>
    obtain ⟨after, hafter, -⟩ := Strategy.exists_answer_of_dpor? h.search op query it.monitors
    cases hafter.symm.trans hanswer
    cases h.clean.symm.trans hviolation
  | @failed op _ _ _ _ _ _ hanswer _ hfault =>
    obtain ⟨after, hafter, hsearch⟩ := Strategy.exists_answer_of_dpor? h.search op query it.monitors
    cases hafter.symm.trans hanswer
    cases (Strategy.takeFault_of_dpor? hsearch).symm.trans hfault
  | @answered op _ _ _ _ _ hanswer _ hfault =>
    obtain ⟨after, hafter, hsearch⟩ := Strategy.exists_answer_of_dpor? h.search op query it.monitors
    cases hafter.symm.trans hanswer
    cases (Strategy.takeFault_of_dpor? hsearch).symm.trans hfault
    exact .inr ⟨op, _, hsearch, rfl⟩

omit [RandomSource γ] in
/-- Examining the waits leaves the search alone. -/
theorem Searches.enableWaiting (h : it.Searches s) : it.enableWaiting.Searches s :=
  h.of_same h.search rfl rfl

/-- A turn is asked for: either a frame is entered for the operation that gets it, or the iteration
does not go on. -/
theorem Searches.scheduleNext [BoundedRandomSource γ] (h : it.Searches s)
    (hnumbered : it.IsNumbered) :
    ∃ later, it.scheduleNext.2.Searches later ∧
      ((s.Stays later ∧
          (it.scheduleNext.2.isRunning = true → ∃ fault, it.scheduleNext.1 = .error fault)) ∨
        ((∃ next, it.scheduleNext.1 = .ok next) ∧
          s.Enters it.scheduleNext.2.operations it.scheduleNext.2.current later)) := by
  have hended {result : Except Fault (Option OperationId) × Iteration γ} {later : Dpor γ}
      (hlater : result.2.Searches later) (hstays : s.Stays later)
      (hnot : result.2.isRunning = false) :
      ∃ later, result.2.Searches later ∧
        ((s.Stays later ∧ (result.2.isRunning = true → ∃ fault, result.1 = .error fault)) ∨
          ((∃ next, result.1 = .ok next) ∧ s.Enters result.2.operations result.2.current later)) := by
    refine ⟨later, hlater, .inl ⟨hstays, fun hrunning => ?_⟩⟩
    cases hnot.symm.trans hrunning
  have hscheduled := it.scheduled
  generalize it.scheduleNext = result at hscheduled ⊢
  have hwaiting := h.enableWaiting
  cases hscheduled with
  | ended hnot => exact hended h (.refl s) hnot
  | empty => exact ⟨s, h, .inl ⟨.refl s, fun _ => ⟨_, rfl⟩⟩⟩
  | completed => exact hended (hwaiting.stop _) (.refl s) (isRunning_stop _ _)
  | atBound => exact hended hwaiting.endAtBound (.refl s) (isRunning_endAtBound _)
  | consulted _ hanswer hresult =>
    rcases hwaiting.consulted hanswer with ⟨fault, rfl⟩ | ⟨op, strategy, hsearch, rfl⟩
    · cases hresult with
      | failed => exact ⟨s, hwaiting, .inl ⟨.refl s, fun _ => ⟨_, rfl⟩⟩⟩
    · by_cases hsome : Operation.enabledIds it.enableWaiting.operations = []
      · rw [Dpor.answer_of_nil op hsome] at hresult hsearch
        cases hresult with
        | unanswered =>
          have hasked : Searches s { it.enableWaiting with strategy } :=
            hwaiting.of_same hsearch rfl rfl
          exact hended hasked.endWithoutChoice (.refl s) (isRunning_endWithoutChoice _)
      · obtain ⟨id, hid, later, hentered, henters⟩ := Dpor.exists_enters op hsome s
        rw [hentered] at hresult hsearch
        cases hresult with
        | refused hrefused =>
          obtain ⟨next, hnext, henabled⟩ := hnumbered.enableWaiting.operation?_eq_some hid
          rw [hrefused next hnext] at henabled
          cases henabled
        | scheduled =>
          refine ⟨later, ⟨hsearch, h.clean, ?_⟩, .inr ⟨⟨_, rfl⟩, henters⟩⟩
          rw [henters.length_marks, h.steps]
          rfl

/-- A value is asked for: no frame is entered. -/
theorem Searches.choose (h : it.Searches s) {query : Query} (hquery : query.IsValue) :
    ∃ later, (it.choose query).2.Searches later ∧ s.Stays later := by
  have hchosen := it.chosen query
  generalize it.choose query = result at hchosen ⊢
  have hasked {answer : Except Fault (Option (Option query.Answer))} {after : Iteration γ}
      (hanswer : Consulted query it (answer, after)) :
      ∃ later, after.Searches later ∧ s.Stays later := by
    rcases h.consulted hanswer with ⟨fault, heq⟩ | ⟨op, strategy, hsearch, heq⟩
    · cases heq
      exact ⟨s, h, .refl s⟩
    · have hstays := Dpor.stays_answer op query s fun ops hops => by
        rw [hops] at hquery
        exact hquery.elim
      cases heq
      exact ⟨_, ⟨hsearch, h.clean, by rw [hstays.marks]; exact h.steps⟩, hstays⟩
  cases hchosen with
  | ended => exact ⟨s, h, .refl s⟩
  | atBound => exact ⟨s, h.endAtBound, .refl s⟩
  | failed _ _ hanswer => exact hasked hanswer
  | violated _ _ hanswer => exact hasked hanswer
  | unanswered _ _ hanswer => exact hasked hanswer
  | given _ _ hanswer =>
    obtain ⟨later, hlater, hstays⟩ := hasked hanswer
    exact ⟨later, hlater.of_same hlater.search rfl rfl, hstays⟩

end Searches

end Iteration

namespace Execution

omit [RandomSource γ] in
/-- The search goes on as long as nothing is asked. -/
theorem SameRun.searches {ex after : Execution γ σ μ} (h : ex.SameRun after) {s : Dpor γ}
    (hs : ex.iteration.Searches s) : after.iteration.Searches s := by
  refine ⟨h.strategy ▸ hs.search, h.violation ▸ hs.clean, hs.steps.trans ?_⟩
  obtain ⟨operations, coverage, monitors, hsame, -⟩ := h
  rw [hsame]

omit [RandomSource γ] in
/-- A body stands nowhere but where it is moved. -/
theorem stage?_setStage_ne (ex : Execution γ σ μ) (id : OperationId) {stage other : Stage σ}
    (h : stage ≠ other) : (ex.setStage id stage).stage? id ≠ some other := by
  rw [Execution.setStage, stage?]
  dsimp only
  rw [List.getElem?_set_self']
  cases ex.stages[id.index]? with
  | none => exact fun heq => by cases heq
  | some old => exact fun heq => h (Option.some.inj heq)

omit [RandomSource γ] in
/-- The body whose turn it is runs, or has ended, as long as nothing is asked. -/
theorem stage?_of_quiet {program : Program σ μ} {ex mid : Execution γ σ μ} {journal : Journal σ}
    (hsettled : ex.Settled) (hin : ex.InOrder journal.pending ex.iteration.current)
    (hturn : ex.turn? program = some (.quiet mid)) (primitive : Primitive σ) (next : σ) :
    mid.stage? ex.iteration.current ≠ some (.parked primitive next) := by
  obtain ⟨memory, htakes⟩ := exists_takes hsettled hin hturn
  generalize ex.action? program = action at htakes
  generalize ex.call? program journal = call at htakes
  cases htakes with
  | replies => exact stage?_setStage_ne _ _ fun heq => by cases heq
  | spawns => exact stage?_setStage_ne _ _ fun heq => by cases heq
  | leaves => exact stage?_setStage_ne _ _ fun heq => by cases heq

/-- What a step does to the frames of a search: it passes the turn on and enters a frame, or the body
whose turn it is goes on. -/
inductive FrameStep (ex after : Execution γ σ μ) (s later : Dpor γ) : Prop where
  | stays (h : s.Stays later)
      (hturn : after.iteration.isRunning = true →
        after.iteration.current = ex.iteration.current ∧ ∀ primitive next,
          after.stage? after.iteration.current ≠ some (.parked primitive next))
  | enters (h : s.Enters after.iteration.operations after.iteration.current later)

/-- A step of a search enters at most one frame. -/
theorem exists_search_step [BoundedRandomSource γ] {program : Program σ μ}
    {ex after : Execution γ σ μ} {journal : Journal σ} {s : Dpor γ} (hs : ex.iteration.Searches s)
    (hsettled : ex.Settled) (hin : ex.InOrder journal.pending ex.iteration.current)
    (hstep : ex.step program = some after) :
    ∃ later, after.iteration.Searches later ∧ FrameStep ex after s later := by
  rw [step_eq_settle, Option.map_eq_some_iff] at hstep
  obtain ⟨turn, hturn, rfl⟩ := hstep
  have hrun := (isOf_turn hturn).2.sameRun
  have hmid := hrun.searches hs
  have hended {ended : Execution γ σ μ} {later : Dpor γ} (hlater : ended.iteration.Searches later)
      (hstays : s.Stays later) (hnot : ended.iteration.isRunning = false) :
      ∃ later, ended.iteration.Searches later ∧ FrameStep ex ended s later := by
    refine ⟨later, hlater, .stays hstays fun hrunning => ?_⟩
    cases hnot.symm.trans hrunning
  cases turn with
  | quiet mid =>
    refine ⟨s, hmid, .stays (.refl s) fun _ => ⟨hrun.current, fun primitive next => ?_⟩⟩
    have hcurrent : mid.iteration.current = ex.iteration.current := hrun.current
    rw [Turn.settle, hcurrent]
    exact stage?_of_quiet hsettled hin hturn primitive next
  | point mid =>
    have hnumbered : mid.iteration.IsNumbered := (hsettled.turn hturn).execution.isNumbered
    obtain ⟨later, hlater, hcases⟩ := hmid.scheduleNext hnumbered
    rw [Turn.settle, reschedule]
    split
    · next next it heq =>
      rw [Turn.execution, heq] at hlater hcases
      rcases hcases with ⟨hstays, hnot⟩ | ⟨-, henters⟩
      · refine hended hlater hstays (Bool.eq_false_iff.mpr fun hrunning => ?_)
        obtain ⟨fault, hfault⟩ := hnot hrunning
        cases hfault
      · exact ⟨later, hlater, .enters henters⟩
    · next fault it heq =>
      rw [Turn.execution, heq] at hlater hcases
      rcases hcases with ⟨hstays, -⟩ | ⟨⟨next, hgiven⟩, -⟩
      · exact hended (hlater.of_same hlater.search rfl rfl) hstays rfl
      · cases hgiven
  | choice id next query wrap mid =>
    obtain ⟨rfl, ⟨memory, rfl⟩, state, reply, hstage⟩ := choice_of_turn? hsettled hin hturn
    obtain ⟨later, hlater, hstays⟩ := hs.choose (hsettled.turn hturn).2.2
    have hchosen := ex.iteration.chosen query
    rw [Turn.settle, choose]
    split
    · next value it heq =>
      rw [heq] at hlater hchosen
      refine ⟨later, hlater, .stays hstays fun hrunning => ?_⟩
      obtain ⟨-, -, -, hcurrent⟩ := hchosen.of_isRunning hrunning
      refine ⟨hcurrent, fun primitive state' => ?_⟩
      change stage? it.current _ ≠ _
      rw [hcurrent]
      exact stage?_setStage_ne _ _ fun heq => by cases heq
    · next it heq =>
      rw [heq] at hlater hchosen
      refine hended hlater hstays (Bool.eq_false_iff.mpr fun hrunning => ?_)
      obtain ⟨given, hgiven, -⟩ := hchosen.of_isRunning hrunning
      cases hgiven
    · next fault it heq =>
      rw [heq] at hlater
      exact hended (hlater.of_same hlater.search rfl rfl) hstays rfl
  | bug kind message mid =>
    exact hended (hmid.reportBug kind message) (.refl s) (Iteration.isRunning_reportBug _ _ _)
  | fault cause mid => exact hended (hmid.of_same hmid.search rfl rfl) (.refl s) rfl

end Execution

end ScheduleExplorer
