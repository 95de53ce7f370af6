import ScheduleExplorer.Iteration
import ScheduleExplorer.Proofs.Strategy.Contract

/-!
# What scheduling changes

An iteration that is asked for a turn or for a value changes its table of operations only by
enabling those whose wait for other operations is over, and keeps its strategy well-formed. An
operation that still waits for others after that waits for a reason.
-/

namespace ScheduleExplorer

namespace Operation

/-- An operation that is enabled because its wait is over stays the same otherwise, and one whose
wait goes on stays the same. -/
theorem enableIfReady_cases (isCompleted : OperationId → Bool) (op : Operation) :
    ((op.enableIfReady isCompleted).id = op.id ∧
      (op.enableIfReady isCompleted).status = .enabled ∧ op.status.isBlocked = true) ∨
    op.enableIfReady isCompleted = op := by
  rw [enableIfReady]
  split
  · next hover => exact .inl ⟨rfl, rfl, isBlocked_of_waitIsOver hover⟩
  · exact .inr rfl

/-- Enabling an operation neither completes it nor undoes its end. -/
theorem isCompleted_enableIfReady (isCompleted : OperationId → Bool) (op : Operation) :
    (op.enableIfReady isCompleted).status.isCompleted = op.status.isCompleted := by
  rcases op.enableIfReady_cases isCompleted with ⟨-, henabled, hblocked⟩ | hsame
  · rw [henabled, Status.isCompleted_of_isBlocked hblocked]
    rfl
  · rw [hsame]

/-- A wait for several operations that goes on waits for one that is not completed. -/
theorem waitAll_enableIfReady {isCompleted : OperationId → Bool} {op : Operation}
    (h : (op.enableIfReady isCompleted).status = .blockedOnWaitAll) :
    ∃ id ∈ (op.enableIfReady isCompleted).dependencies, isCompleted id = false := by
  rw [enableIfReady] at h ⊢
  split at h
  · cases h
  · next hover =>
    rw [if_neg hover]
    simpa [waitIsOver, h] using hover

/-- A wait for any of several operations that goes on waits for operations that are not
completed. -/
theorem waitAny_enableIfReady {isCompleted : OperationId → Bool} {op : Operation}
    (h : (op.enableIfReady isCompleted).status = .blockedOnWaitAny) :
    ∀ id ∈ (op.enableIfReady isCompleted).dependencies, isCompleted id = false := by
  rw [enableIfReady] at h ⊢
  split at h
  · cases h
  · next hover =>
    rw [if_neg hover]
    simpa [waitIsOver, h] using hover

end Operation

variable {γ : Type}

namespace Iteration

/-- The operations of an iteration are numbered by their places. -/
def IsNumbered (it : Iteration γ) : Prop :=
  ∀ id op, it.operation? id = some op → op.id = id

/-- The place of an operation after waiting operations were enabled. -/
theorem operation?_enableWaiting (it : Iteration γ) (id : OperationId) :
    it.enableWaiting.operation? id =
      (it.operation? id).map (Operation.enableIfReady it.isCompleted) := by
  rw [operation?, operation?, enableWaiting, List.getElem?_map]

/-- Enabling operations completes none. -/
theorem isCompleted_enableWaiting (it : Iteration γ) (id : OperationId) :
    it.enableWaiting.isCompleted id = it.isCompleted id := by
  rw [isCompleted, isCompleted, operation?_enableWaiting, Option.any_map]
  congr 1
  funext op
  exact Operation.isCompleted_enableIfReady _ op

/-- Enabling operations keeps their numbers. -/
theorem IsNumbered.enableWaiting {it : Iteration γ} (h : it.IsNumbered) :
    it.enableWaiting.IsNumbered := by
  intro id op hop
  rw [operation?_enableWaiting, Option.map_eq_some_iff] at hop
  obtain ⟨old, hold, rfl⟩ := hop
  rcases old.enableIfReady_cases it.isCompleted with ⟨hid, -, -⟩ | hsame
  · rw [hid, h id old hold]
  · rw [hsame, h id old hold]

/-- The operation whose turn it is asks about a table that holds it. -/
theorem IsNumbered.isAskedBy {it : Iteration γ} (h : it.IsNumbered) {current : Operation}
    (hcurrent : it.operation? it.current = some current) :
    (Query.operation it.operations).IsAskedBy current := by
  refine ⟨List.mem_of_getElem? hcurrent, ?_⟩
  rw [List.nodup_iff_injective_getElem]
  intro first second hsame
  have hplace (place : Fin (it.operations.map Operation.id).length) :
      (it.operations.map Operation.id)[place] = ⟨place⟩ := by
    have hlt : place.val < it.operations.length := by
      rw [← List.length_map Operation.id]
      exact place.isLt
    rw [Fin.getElem_fin, List.getElem_map]
    exact h ⟨place⟩ _ (List.getElem?_eq_getElem hlt)
  exact Fin.ext (OperationId.mk.inj ((hplace first).symm.trans (hsame.trans (hplace second))))

/-- An operation of a numbered table is found under its number. -/
theorem IsNumbered.operation?_eq_some {it : Iteration γ} (h : it.IsNumbered) {id : OperationId}
    (hid : id ∈ Operation.enabledIds it.operations) :
    ∃ op, it.operation? id = some op ∧ op.isEnabled = true := by
  obtain ⟨op, hop, henabled, rfl⟩ := Operation.mem_enabledIds.mp hid
  obtain ⟨index, hindex⟩ := List.mem_iff_getElem?.mp hop
  have hplace : it.operation? ⟨index⟩ = some op := hindex
  rw [h _ _ hplace]
  exact ⟨op, hplace, henabled⟩

/-! ### Endings -/

/-- Two iterations have the same operations, and strategies that stand at the same place. -/
structure SameTable (it other : Iteration γ) : Prop where
  operations : other.operations = it.operations
  strategy : it.strategy.Keeps other.strategy

/-- An iteration has its own operations. -/
theorem SameTable.refl (it : Iteration γ) : it.SameTable it :=
  ⟨rfl, .refl it.strategy⟩

/-- Ending an iteration keeps its operations. -/
theorem sameTable_stop (outcome : Outcome) (it : Iteration γ) : it.SameTable (it.stop outcome) := by
  rw [stop]
  split
  · exact ⟨rfl, .refl _⟩
  · exact .refl it

/-- Reporting a bug keeps the operations. -/
theorem sameTable_reportBug (kind : BugKind) (message : String) (it : Iteration γ) :
    it.SameTable (it.reportBug kind message) := by
  rw [reportBug]
  split
  · exact ⟨rfl, it.strategy.keeps_notifyBug⟩
  · exact .refl it

/-- A running iteration that is ended has the outcome. -/
theorem phase_stop {it : Iteration γ} (h : it.isRunning = true) (outcome : Outcome) :
    (it.stop outcome).phase = .stopped outcome := by
  rw [stop, if_pos h]

/-- A running iteration that reports a bug has found it. -/
theorem phase_reportBug {it : Iteration γ} (h : it.isRunning = true) (kind : BugKind)
    (message : String) : (it.reportBug kind message).phase = .stopped (.bugFound kind) := by
  rw [reportBug, if_pos h]

/-- Reporting a bug leaves the monitors alone. -/
theorem monitors_reportBug (kind : BugKind) (message : String) (it : Iteration γ) :
    (it.reportBug kind message).monitors = it.monitors := by
  rw [reportBug]
  split <;> rfl

/-- Stopping leaves the monitors alone. -/
theorem monitors_stop (outcome : Outcome) (it : Iteration γ) :
    (it.stop outcome).monitors = it.monitors := by
  rw [stop]
  split <;> rfl

/-- Ending without a choice leaves the monitors alone. -/
theorem monitors_endWithoutChoice (it : Iteration γ) : it.endWithoutChoice.monitors = it.monitors := by
  rw [endWithoutChoice]
  split
  · exact monitors_reportBug _ _ it
  · exact monitors_stop _ it

/-- The monitors when the step bound is reached: a fair strategy has them checked. -/
def monitorsAtBound (it : Iteration γ) : Monitors :=
  if it.strategy.isFair then it.monitors.checkAtBound else it.monitors

/-- The end at the step bound, given the violation that counts. -/
def closeAtBound (violation : Option LivenessViolation) (it : Iteration γ) : Iteration γ :=
  match violation with
  | some violation => it.reportBug .liveness violation.message
  | none =>
    if it.depthBoundIsBug then
      it.reportBug .assertion s!"Scheduling steps bound of {it.strategy.steps} reached"
    else it.stop .stepBoundReached

/-- At the step bound the monitors are checked, and then the iteration is ended. -/
theorem endAtBound_eq (it : Iteration γ) :
    it.endAtBound = { it with monitors := it.monitorsAtBound }.closeAtBound
      (if it.strategy.isFair then it.monitorsAtBound.violation else none) := by
  unfold endAtBound monitorsAtBound closeAtBound
  cases hfair : it.strategy.isFair with
  | false => simp only [hfair, Bool.false_eq_true, if_false]
  | true =>
    cases hviolation : it.monitors.checkAtBound.violation <;>
      simp only [hfair, hviolation, if_true]

/-- What becomes of the monitors at the step bound is that they are checked. -/
theorem monitors_endAtBound (it : Iteration γ) : it.endAtBound.monitors = it.monitorsAtBound := by
  rw [endAtBound_eq]
  unfold closeAtBound
  split
  · exact monitors_reportBug _ _ _
  · split
    · exact monitors_reportBug _ _ _
    · exact monitors_stop _ _

/-- The end at the bound keeps the operations. -/
theorem sameTable_closeAtBound (violation : Option LivenessViolation) (it : Iteration γ) :
    it.SameTable (it.closeAtBound violation) := by
  unfold closeAtBound
  cases violation with
  | some violation => exact sameTable_reportBug _ _ it
  | none =>
    dsimp only
    split
    · exact sameTable_reportBug _ _ it
    · exact sameTable_stop _ it

/-- Reaching the bound keeps the operations. -/
theorem sameTable_endAtBound (it : Iteration γ) : it.SameTable it.endAtBound := by
  rw [endAtBound_eq]
  have hclosed := sameTable_closeAtBound
    (if it.strategy.isFair then it.monitorsAtBound.violation else none)
    { it with monitors := it.monitorsAtBound }
  exact ⟨hclosed.operations, hclosed.strategy⟩

/-- Reaching the bound is a liveness violation, an assertion or no bug. -/
theorem phase_endAtBound {it : Iteration γ} (h : it.isRunning = true) :
    it.endAtBound.phase = .stopped (.bugFound .liveness) ∨
      it.endAtBound.phase = .stopped (.bugFound .assertion) ∨
      it.endAtBound.phase = .stopped .stepBoundReached := by
  have hrunning : ({ it with monitors := it.monitorsAtBound } : Iteration γ).isRunning = true := h
  rw [endAtBound_eq]
  unfold closeAtBound
  split
  · exact .inl (phase_reportBug hrunning _ _)
  · split
    · exact .inr (.inl (phase_reportBug hrunning _ _))
    · exact .inr (.inr (phase_stop hrunning _))

/-- Ending without a choice keeps the operations. -/
theorem sameTable_endWithoutChoice (it : Iteration γ) : it.SameTable it.endWithoutChoice := by
  rw [endWithoutChoice]
  split
  · exact sameTable_reportBug _ _ it
  · exact sameTable_stop _ it

/-- An iteration that is ended does not run. -/
theorem isRunning_stop (outcome : Outcome) (it : Iteration γ) :
    (it.stop outcome).isRunning = false := by
  rw [stop]
  split
  · rfl
  · next hended => exact Bool.eq_false_iff.mpr hended

/-- An iteration that reports a bug does not run. -/
theorem isRunning_reportBug (kind : BugKind) (message : String) (it : Iteration γ) :
    (it.reportBug kind message).isRunning = false := by
  rw [reportBug]
  split
  · rfl
  · next hended => exact Bool.eq_false_iff.mpr hended

/-- An iteration does not run beyond its bound. -/
theorem isRunning_endAtBound (it : Iteration γ) : it.endAtBound.isRunning = false := by
  rw [endAtBound_eq]
  unfold closeAtBound
  split
  · exact isRunning_reportBug _ _ _
  · split
    · exact isRunning_reportBug _ _ _
    · exact isRunning_stop _ _

/-- An iteration does not run without a choice. -/
theorem isRunning_endWithoutChoice (it : Iteration γ) : it.endWithoutChoice.isRunning = false := by
  rw [endWithoutChoice]
  split
  · exact isRunning_reportBug _ _ it
  · exact isRunning_stop _ it

/-! ### Queries -/

variable [RandomSource γ]

/-- How a consultation of the strategy ends: without the operation whose turn it is, with a
violation, with a fault, or with what the strategy answers. -/
inductive Consulted (query : Query) (it : Iteration γ) :
    Except Fault (Option (Option query.Answer)) × Iteration γ → Prop where
  | unknown (h : it.operation? it.current = none) :
      Consulted query it (.error (.unknownOperation it.current), it)
  | violated {op : Operation} {answer : Option query.Answer} {strategy : Strategy γ}
      {monitors : Monitors} {violation : LivenessViolation}
      (hop : it.operation? it.current = some op)
      (hanswer : it.strategy.answer op query it.monitors = (answer, strategy, monitors))
      (hviolation : monitors.violation = some violation) :
      Consulted query it
        (.ok none, { it with strategy, monitors }.reportBug .liveness violation.message)
  | failed {op : Operation} {answer : Option query.Answer} {strategy taken : Strategy γ}
      {monitors : Monitors} {fault : Fault}
      (hop : it.operation? it.current = some op)
      (hanswer : it.strategy.answer op query it.monitors = (answer, strategy, monitors))
      (hviolation : monitors.violation = none) (hfault : strategy.takeFault = (some fault, taken)) :
      Consulted query it (.error fault, { it with strategy := taken, monitors })
  | answered {op : Operation} {answer : Option query.Answer} {strategy taken : Strategy γ}
      {monitors : Monitors}
      (hop : it.operation? it.current = some op)
      (hanswer : it.strategy.answer op query it.monitors = (answer, strategy, monitors))
      (hviolation : monitors.violation = none) (hfault : strategy.takeFault = (none, taken)) :
      Consulted query it (.ok (some answer), { it with strategy := taken, monitors })

/-- Every consultation ends in one of these ways. -/
theorem consulted (query : Query) (it : Iteration γ) : Consulted query it (it.consult query) := by
  rw [consult]
  cases hop : it.operation? it.current with
  | none => exact .unknown hop
  | some op =>
    dsimp only
    generalize hanswer : it.strategy.answer op query it.monitors = result
    obtain ⟨answer, strategy, monitors⟩ := result
    dsimp only [endAtViolation?]
    cases hviolation : monitors.violation with
    | some violation => exact .violated hop hanswer hviolation
    | none =>
      dsimp only [Option.map_none]
      generalize hfault : strategy.takeFault = result
      obtain ⟨fault, taken⟩ := result
      cases fault with
      | some fault => exact .failed hop hanswer hviolation hfault
      | none => exact .answered hop hanswer hviolation hfault

/-- A consultation has one outcome. -/
theorem Consulted.eq {query : Query} {it : Iteration γ}
    {result : Except Fault (Option (Option query.Answer)) × Iteration γ}
    (h : Consulted query it result) : it.consult query = result := by
  cases h with
  | unknown hop => simp only [consult, hop]
  | violated hop hanswer hviolation =>
    simp only [consult, hop, hanswer, endAtViolation?, hviolation, Option.map_some]
  | failed hop hanswer hviolation hfault =>
    simp only [consult, hop, hanswer, endAtViolation?, hviolation, Option.map_none, hfault]
  | answered hop hanswer hviolation hfault =>
    simp only [consult, hop, hanswer, endAtViolation?, hviolation, Option.map_none, hfault]

/-- A consultation keeps the operations. -/
theorem Consulted.operations {query : Query} {it : Iteration γ}
    {result : Except Fault (Option (Option query.Answer)) × Iteration γ}
    (h : Consulted query it result) : result.2.operations = it.operations := by
  cases h with
  | violated => exact (sameTable_reportBug _ _ _).operations
  | _ => rfl

/-- A consultation keeps the strategy well-formed. -/
theorem Consulted.wellFormed [LawfulRandomSource γ] {query : Query} {it : Iteration γ}
    {result : Except Fault (Option (Option query.Answer)) × Iteration γ}
    (h : Consulted query it result) (hstrategy : it.strategy.WellFormed)
    (hquery : ∀ op, it.operation? it.current = some op → query.IsAskedBy op) :
    result.2.strategy.WellFormed := by
  have hafter {op : Operation} {answer : Option query.Answer} {strategy : Strategy γ}
      {monitors : Monitors} (hop : it.operation? it.current = some op)
      (hanswer : it.strategy.answer op query it.monitors = (answer, strategy, monitors)) :
      strategy.WellFormed := by
    have hanswered := (Strategy.answered (hquery op hop) hstrategy it.monitors).wellFormed
    rwa [hanswer] at hanswered
  have htaken {strategy taken : Strategy γ} {fault : Option Fault}
      (hfault : strategy.takeFault = (fault, taken)) (hwf : strategy.WellFormed) :
      taken.WellFormed := by
    have hkept := strategy.keeps_takeFault
    rw [hfault] at hkept
    exact hkept.wellFormed hwf
  cases h with
  | unknown => exact hstrategy
  | violated hop hanswer =>
    exact (sameTable_reportBug _ _ _).strategy.wellFormed (hafter hop hanswer)
  | failed hop hanswer _ hfault => exact htaken hfault (hafter hop hanswer)
  | answered hop hanswer _ hfault => exact htaken hfault (hafter hop hanswer)

/-- What follows from a consultation about the next turn among some operations. -/
inductive Concluded (ops : List Operation) :
    Except Fault (Option (Option (Query.operation ops).Answer)) × Iteration γ →
      Except Fault (Option OperationId) × Iteration γ → Prop where
  | failed {fault : Fault} {after : Iteration γ} :
      Concluded ops (.error fault, after) (.error fault, after)
  | violated {after : Iteration γ} : Concluded ops (.ok none, after) (.ok none, after)
  | unanswered {after : Iteration γ} :
      Concluded ops (.ok (some none), after) (.ok none, after.endWithoutChoice)
  | refused {next : OperationId} {fault : Fault} {after : Iteration γ}
      (h : ∀ op, after.operation? next = some op → op.isEnabled = false) :
      Concluded ops (.ok (some (some next)), after) (.error fault, after)
  | scheduled {next : OperationId} {op : Operation} {after : Iteration γ}
      (hop : after.operation? next = some op) (henabled : op.isEnabled = true) :
      Concluded ops (.ok (some (some next)), after) (.ok (some next), after.schedule next)

/-- How a turn is asked for: not at all after an ending, without operations, or after examining the
waiting operations, where all may have completed, the step bound may be reached, or else the
strategy is consulted. -/
inductive Scheduled (it : Iteration γ) :
    Except Fault (Option OperationId) × Iteration γ → Prop where
  | ended (h : it.isRunning = false) : Scheduled it (.ok none, it)
  | empty (h : it.operations = []) : Scheduled it (.error .emptyOperationSet, it)
  | completed (h : it.enableWaiting.operations.all (·.status.isCompleted) = true)
      (hopen : it.isRunning = true ∧ it.operations ≠ []) :
      Scheduled it (.ok none, it.enableWaiting.stop .completed)
  | atBound (h : it.strategy.atBound = true) (hopen : it.isRunning = true ∧ it.operations ≠ [])
      (hleft : it.enableWaiting.operations.all (·.status.isCompleted) = false) :
      Scheduled it (.ok none, it.enableWaiting.endAtBound)
  | consulted (hbound : it.strategy.atBound = false) {answer : Except Fault (Option (Option
        (Query.operation it.enableWaiting.operations).Answer)) × Iteration γ}
      {result : Except Fault (Option OperationId) × Iteration γ}
      (hanswer : Consulted (.operation it.enableWaiting.operations) it.enableWaiting answer)
      (hresult : Concluded it.enableWaiting.operations answer result)
      (hopen : it.isRunning = true ∧ it.operations ≠ [])
      (hleft : it.enableWaiting.operations.all (·.status.isCompleted) = false) :
      Scheduled it result

/-- Every turn is asked for in one of these ways. -/
theorem scheduled (it : Iteration γ) : Scheduled it it.scheduleNext := by
  rw [scheduleNext]
  split
  · next hended => exact .ended (by simpa using hended)
  · next hrunning =>
    split
    · next hempty => exact .empty (List.isEmpty_iff.mp hempty)
    · next hsome =>
      have hopen : it.isRunning = true ∧ it.operations ≠ [] :=
        ⟨by simpa using hrunning, by simpa using hsome⟩
      dsimp only
      split
      · next hcompleted => exact .completed hcompleted hopen
      · next hleft =>
        split
        · next hbound => exact .atBound hbound hopen (Bool.eq_false_iff.mpr hleft)
        · next hbound =>
          have hnot : it.strategy.atBound = false := Bool.eq_false_iff.mpr hbound
          refine .consulted hnot (it.enableWaiting.consulted _) ?_ hopen
            (Bool.eq_false_iff.mpr hleft)
          split
          · next heq =>
            rw [heq]
            exact .failed
          · next heq =>
            rw [heq]
            exact .violated
          · next heq =>
            rw [heq]
            exact .unanswered
          · next heq =>
            rw [heq]
            split
            · next hnone => exact .refused fun op hop => by cases hnone.symm.trans hop
            · next op hop =>
              split
              · next henabled => exact .scheduled hop henabled
              · next hdisabled =>
                refine .refused fun other hother => ?_
                obtain rfl := Option.some.inj (hop.symm.trans hother)
                exact Bool.eq_false_iff.mpr hdisabled

/-- A turn that is given out, or withheld without a fault, is given out in one way. -/
theorem Scheduled.eq {it : Iteration γ} {next : Option OperationId} {after : Iteration γ}
    (h : Scheduled it (.ok next, after)) : it.scheduleNext = (.ok next, after) := by
  have hskip {ops : List Operation} (hsome : ops ≠ []) : ops.isEmpty = false := by
    rwa [Bool.eq_false_iff, Ne, List.isEmpty_iff]
  cases h with
  | ended h => simp only [scheduleNext, h, Bool.not_false, if_true]
  | completed h hopen =>
    simp only [scheduleNext, hopen.1, hskip hopen.2, h, Bool.not_true, Bool.false_eq_true, if_false,
      if_true]
  | atBound h hopen hleft =>
    have hbound : it.enableWaiting.strategy.atBound = true := h
    simp only [scheduleNext, hopen.1, hskip hopen.2, hleft, hbound, Bool.not_true,
      Bool.false_eq_true, if_false, if_true]
  | consulted hbound hanswer hresult hopen hleft =>
    have hnot : it.enableWaiting.strategy.atBound = false := hbound
    simp only [scheduleNext, hopen.1, hskip hopen.2, hleft, hnot, Bool.not_true,
      Bool.false_eq_true, if_false, hanswer.eq]
    cases hresult with
    | violated => rfl
    | unanswered => rfl
    | scheduled hop henabled => simp only [hop, henabled, if_true]

omit [RandomSource γ] in
/-- What follows from a consultation keeps the operations and the place of the strategy. -/
theorem Concluded.kept {ops : List Operation}
    {answer : Except Fault (Option (Option (Query.operation ops).Answer)) × Iteration γ}
    {result : Except Fault (Option OperationId) × Iteration γ} (h : Concluded ops answer result) :
    answer.2.SameTable result.2 := by
  cases h with
  | unanswered => exact sameTable_endWithoutChoice _
  | scheduled => exact ⟨rfl, .refl _⟩
  | _ => exact .refl _

/-- A turn that is asked for leaves the operations as they are, or enables those whose wait is
over. -/
theorem operations_scheduleNext (it : Iteration γ) :
    it.scheduleNext.2.operations = it.operations ∨
      it.scheduleNext.2.operations = it.enableWaiting.operations := by
  have hscheduled := it.scheduled
  generalize it.scheduleNext = result at hscheduled ⊢
  cases hscheduled with
  | ended => exact .inl rfl
  | empty => exact .inl rfl
  | completed => exact .inr (sameTable_stop _ _).operations
  | atBound => exact .inr (sameTable_endAtBound _).operations
  | consulted _ hanswer hresult =>
    exact .inr (hresult.kept.operations.trans hanswer.operations)

/-- A turn that is asked for keeps the strategy well-formed. -/
theorem wellFormed_scheduleNext [LawfulRandomSource γ] {it : Iteration γ}
    (hstrategy : it.strategy.WellFormed) (hnumbered : it.IsNumbered) :
    it.scheduleNext.2.strategy.WellFormed := by
  have hscheduled := it.scheduled
  generalize it.scheduleNext = result at hscheduled ⊢
  cases hscheduled with
  | ended => exact hstrategy
  | empty => exact hstrategy
  | completed => exact (sameTable_stop _ _).strategy.wellFormed hstrategy
  | atBound => exact (sameTable_endAtBound _).strategy.wellFormed hstrategy
  | consulted _ hanswer hresult =>
    exact hresult.kept.strategy.wellFormed
      (hanswer.wellFormed hstrategy fun op hop => hnumbered.enableWaiting.isAskedBy hop)

/-- How a value is asked for: not at all after an ending, at the step bound, or by a consultation,
whose answer is given out and recorded if there is one. -/
inductive Chosen (query : Query) (it : Iteration γ) :
    Except Fault (Option query.Answer) × Iteration γ → Prop where
  | ended (h : it.isRunning = false) : Chosen query it (.ok none, it)
  | atBound (h : it.strategy.atBound = true) (hrunning : it.isRunning = true) :
      Chosen query it (.ok none, it.endAtBound)
  | failed (hbound : it.strategy.atBound = false) (hrunning : it.isRunning = true)
      {fault : Fault} {after : Iteration γ} (hanswer : Consulted query it (.error fault, after)) :
      Chosen query it (.error fault, after)
  | violated (hbound : it.strategy.atBound = false) (hrunning : it.isRunning = true)
      {after : Iteration γ} (hanswer : Consulted query it (.ok none, after)) :
      Chosen query it (.ok none, after)
  | unanswered (hbound : it.strategy.atBound = false) (hrunning : it.isRunning = true)
      {fault : Fault} {after : Iteration γ}
      (hanswer : Consulted query it (.ok (some none), after)) :
      Chosen query it (.error fault, after)
  | given (hbound : it.strategy.atBound = false) (hrunning : it.isRunning = true)
      {value : query.Answer} {after : Iteration γ}
      (hanswer : Consulted query it (.ok (some (some value)), after)) :
      Chosen query it
        (.ok (some value), { after with trace := after.trace.push (query.decision value) })

/-- Every value is asked for in one of these ways. -/
theorem chosen (query : Query) (it : Iteration γ) : Chosen query it (it.choose query) := by
  rw [choose]
  split
  · next hended => exact .ended (by simpa using hended)
  · next hgoesOn =>
    have hrunning : it.isRunning = true := by simpa using hgoesOn
    have hanswer := it.consulted query
    split
    · next hbound => exact .atBound hbound hrunning
    · next hbound =>
      have hnot : it.strategy.atBound = false := Bool.eq_false_iff.mpr hbound
      split
      · next heq => exact .failed hnot hrunning (heq ▸ hanswer)
      · next heq => exact .violated hnot hrunning (heq ▸ hanswer)
      · next heq => exact .unanswered hnot hrunning (heq ▸ hanswer)
      · next heq => exact .given hnot hrunning (heq ▸ hanswer)

/-- A value that is given out, or withheld without a fault, is given out in one way. -/
theorem Chosen.eq {query : Query} {it : Iteration γ} {value : Option query.Answer}
    {after : Iteration γ} (h : Chosen query it (.ok value, after)) :
    it.choose query = (.ok value, after) := by
  cases h with
  | ended h => simp only [choose, h, Bool.not_false, if_true]
  | atBound h hrunning =>
    simp only [choose, h, hrunning, Bool.not_true, Bool.false_eq_true, if_false, if_true]
  | violated hbound hrunning hanswer =>
    simp only [choose, hbound, hrunning, Bool.not_true, Bool.false_eq_true, if_false, hanswer.eq]
  | given hbound hrunning hanswer =>
    simp only [choose, hbound, hrunning, Bool.not_true, Bool.false_eq_true, if_false, hanswer.eq]

/-- A value that is asked for leaves the operations as they are. -/
theorem operations_choose (query : Query) (it : Iteration γ) :
    (it.choose query).2.operations = it.operations := by
  have hchosen := it.chosen query
  generalize it.choose query = result at hchosen ⊢
  cases hchosen with
  | ended => rfl
  | atBound => exact (sameTable_endAtBound it).operations
  | failed _ _ hanswer => exact hanswer.operations
  | violated _ _ hanswer => exact hanswer.operations
  | unanswered _ _ hanswer => exact hanswer.operations
  | given _ _ hanswer => exact hanswer.operations

/-- A value that is asked for keeps the strategy well-formed. -/
theorem wellFormed_choose [LawfulRandomSource γ] {query : Query} {it : Iteration γ}
    (hstrategy : it.strategy.WellFormed)
    (hquery : ∀ op, it.operation? it.current = some op → query.IsAskedBy op) :
    (it.choose query).2.strategy.WellFormed := by
  have hchosen := it.chosen query
  generalize it.choose query = result at hchosen ⊢
  cases hchosen with
  | ended => exact hstrategy
  | atBound => exact (sameTable_endAtBound it).strategy.wellFormed hstrategy
  | failed _ _ hanswer => exact hanswer.wellFormed hstrategy hquery
  | violated _ _ hanswer => exact hanswer.wellFormed hstrategy hquery
  | unanswered _ _ hanswer => exact hanswer.wellFormed hstrategy hquery
  | given _ _ hanswer => exact hanswer.wellFormed hstrategy hquery

/-- A consultation reports no deadlock. -/
theorem Consulted.phase_ne_deadlock {query : Query} {it : Iteration γ}
    {result : Except Fault (Option (Option query.Answer)) × Iteration γ}
    (h : Consulted query it result) (hrunning : it.isRunning = true) :
    result.2.phase ≠ .stopped (.bugFound .deadlock) := by
  have hgoesOn : it.phase ≠ .stopped (.bugFound .deadlock) := by
    rw [isRunning, decide_eq_true_eq] at hrunning
    rw [hrunning]
    decide
  cases h with
  | @violated op answer strategy monitors violation hop hanswer hviolation =>
    have hrunning' : ({ it with strategy, monitors } : Iteration γ).isRunning = true := hrunning
    rw [phase_reportBug hrunning']
    decide
  | _ => exact hgoesOn

/-- Asking for a value reports no deadlock. -/
theorem phase_choose_ne_deadlock (query : Query) {it : Iteration γ} (h : it.isRunning = true) :
    (it.choose query).2.phase ≠ .stopped (.bugFound .deadlock) := by
  have hchosen := it.chosen query
  generalize it.choose query = result at hchosen ⊢
  cases hchosen with
  | ended hended => cases hended.symm.trans h
  | atBound =>
    rcases it.phase_endAtBound h with hphase | hphase | hphase <;>
    · rw [hphase]
      decide
  | failed _ _ hanswer => exact hanswer.phase_ne_deadlock h
  | violated _ _ hanswer => exact hanswer.phase_ne_deadlock h
  | unanswered _ _ hanswer => exact hanswer.phase_ne_deadlock h
  | given _ _ hanswer => exact hanswer.phase_ne_deadlock h

end Iteration

end ScheduleExplorer
