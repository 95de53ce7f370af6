import ScheduleExplorer.Proofs.Execution.Driven
import ScheduleExplorer.Proofs.Replay.Campaigns
import ScheduleExplorer.Proofs.Replay.Recording
import ScheduleExplorer.Proofs.Strategy.Faults

/-!
# Replays that diverge

A trace may be replayed on any program. While the iteration goes on, the replay has answered with the
first decisions of the trace, and these are what the iteration has recorded: nothing else is ever
recorded, whatever calls are made.

A query may have possible answers none of which is the next decision. Unless the step bound or a
violation ends the iteration before the replay is asked, the iteration is then given up as diverged
after as many decisions as were replayed, and it has no outcome.
-/

namespace ScheduleExplorer

variable {γ σ μ : Type}

/-- A decision that answers a query is the one that the answer amounts to. -/
theorem Replay.eq_decision_of_reply {decision : Decision} {query : Query} {value : query.Answer}
    (h : reply decision query = .ok value) : decision = query.decision value := by
  cases query with
  | operation ops =>
    cases decision with
    | operation id =>
      simp only [reply] at h
      split at h
      · exact congrArg Decision.operation (Except.ok.inj h)
      · cases h
    | boolean => cases h
    | integer => cases h
  | boolean bound =>
    cases decision with
    | boolean value => exact congrArg Decision.boolean (Except.ok.inj h)
    | operation => cases h
    | integer => cases h
  | integer bound =>
    cases decision with
    | integer value =>
      simp only [reply] at h
      split at h
      · exact congrArg Decision.integer (Except.ok.inj h)
      · cases h
    | operation => cases h
    | boolean => cases h

namespace Recording

variable {r : Recording} {count : Nat} {query : Query}

/-- The next decision of the trace, after a number of them, is no answer to a query. An operation is
asked for, something is enabled, and the next decision is of another kind or an operation that is not
enabled; or a truth value is asked for and none is next; or an integer is asked for and none in range
is next. A trace that is used up has no next decision. -/
def Misses (r : Recording) (count : Nat) : Query → Prop
  | .operation ops => Operation.anyEnabled ops = true ∧
      ∀ id, r.trace.get? count = some (.operation id) → Operation.isEnabledIn ops id = false
  | .boolean _ => ∀ value, r.trace.get? count ≠ some (.boolean value)
  | .integer bound => ∀ value, r.trace.get? count = some (.integer value) → max bound 1 ≤ value

/-- A query is missed if it has possible answers and none of them is the next decision. -/
theorem misses_iff : r.Misses count query ↔ query.alternatives ≠ [] ∧
    ∀ value ∈ query.alternatives, r.trace.get? count ≠ some (query.decision value) := by
  cases query with
  | operation ops =>
    have hsome : Operation.anyEnabled ops = true ↔ Operation.enabledIds ops ≠ [] := by
      simp [Operation.enabledIds, Operation.anyEnabled]
    have hmem (id : OperationId) :
        Operation.isEnabledIn ops id = true ↔ id ∈ Operation.enabledIds ops := by
      simp [Operation.mem_enabledIds, Operation.isEnabledIn, and_comm]
    refine and_congr hsome (forall_congr' fun id => ?_)
    rw [← Bool.not_eq_true, hmem]
    exact ⟨fun h hid hnext => h hnext hid, fun h hnext hid => h hid hnext⟩
  | boolean bound =>
    refine ⟨fun h => ⟨List.cons_ne_nil _ _, fun value _ => h value⟩, fun h value => h.2 value ?_⟩
    cases value <;> simp [Query.alternatives]
  | integer bound =>
    have hzero : 0 ∈ (Query.integer bound).alternatives :=
      Query.mem_alternatives_integer.mpr (by omega)
    constructor
    · refine fun h => ⟨List.ne_nil_of_mem hzero, fun value hmem hnext => ?_⟩
      have hlt := Query.mem_alternatives_integer.mp hmem
      have hle := h value hnext
      omega
    · intro h value hnext
      by_contra hlt
      exact h.2 value (Query.mem_alternatives_integer.mpr (by omega)) hnext

/-- What a replay answers after a number of decisions, and what becomes of it. -/
inductive Replies (r : Recording) (count : Nat) (query : Query) :
    Option query.Answer × Replay → Prop where
  | nothing (h : query.alternatives = []) : Replies r count query (none, r.replay count)
  | recorded {value : query.Answer} (hmem : value ∈ query.alternatives)
      (hnext : r.trace.get? count = some (query.decision value)) :
      Replies r count query (some value, r.replay (count + 1))
  | diverged {reason : String} (h : r.Misses count query) :
      Replies r count query
        (none, { r.replay count with fault := some (.replayDivergence count reason) })

/-- A replay gives the decision of the recording if it answers the query, and none otherwise. -/
theorem replies (r : Recording) (count : Nat) (query : Query) :
    r.Replies count query ((r.replay count).answer query) := by
  by_cases hnil : query.alternatives = []
  · rw [answer_replay_of_nil hnil]
    exact .nothing hnil
  · by_cases hrecorded : ∃ value ∈ query.alternatives,
        r.trace.get? count = some (query.decision value)
    · obtain ⟨value, hmem, hnext⟩ := hrecorded
      rw [answer_replay hmem hnext]
      exact .recorded hmem hnext
    · have hmisses : r.Misses count query :=
        misses_iff.mpr ⟨hnil, fun value hmem hnext => hrecorded ⟨value, hmem, hnext⟩⟩
      obtain ⟨some, hsome⟩ := List.exists_mem_of_ne_nil _ hnil
      have hskip : (!Replay.isAnswerable query || (r.replay count).fault.isSome) = false := by
        rw [Replay.isAnswerable_of_mem hsome]
        rfl
      have hget : (r.replay count).trace.get? (r.replay count).position = r.trace.get? count := rfl
      rw [Replay.answer, if_neg (by rw [hskip]; exact Bool.false_ne_true), hget]
      split
      · exact .diverged hmisses
      · next decision hdecision =>
        split
        · next value hreply =>
          have hsame := Replay.eq_decision_of_reply hreply
          exact absurd (hsame ▸ hdecision) ((misses_iff.mp hmisses).2 value (Replay.mem_of_reply hreply))
        · exact .diverged hmisses

/-! ### Consultations -/

/-- An ending is no fault. -/
theorem fault_stop (outcome : Outcome) (it : Iteration γ) : (it.stop outcome).fault = it.fault := by
  rw [Iteration.stop]
  split <;> rfl

/-- A bug is no fault. -/
theorem fault_reportBug (kind : BugKind) (message : String) (it : Iteration γ) :
    (it.reportBug kind message).fault = it.fault := by
  rw [Iteration.reportBug]
  split <;> rfl

/-- The end at the step bound is no fault. -/
theorem fault_endAtBound (it : Iteration γ) : it.endAtBound.fault = it.fault := by
  rw [Iteration.endAtBound_eq]
  unfold Iteration.closeAtBound
  split
  · exact fault_reportBug _ _ _
  · split
    · exact fault_reportBug _ _ _
    · exact fault_stop _ _

/-- The end without a choice is no fault. -/
theorem fault_endWithoutChoice (it : Iteration γ) : it.endWithoutChoice.fault = it.fault := by
  rw [Iteration.endWithoutChoice]
  split
  · exact fault_reportBug _ _ it
  · exact fault_stop _ it

variable [RandomSource γ]

/-- A query that finds no violation is answered by the replay. -/
theorem replies_strategy {op : Operation} {monitors checked : Monitors}
    {answer : Option query.Answer} {strategy : Strategy γ}
    (hanswer : (r.strategy count).answer op query monitors = (answer, strategy, checked))
    (hviolation : checked.violation = none) :
    ∃ replay, r.Replies count query (answer, replay) ∧
      strategy = .watch r.isWatched (.replay replay) := by
  have hafter : ((r.strategy count : Strategy γ).answer op query monitors).2.2.violation = none := by
    rw [hanswer]
    exact hviolation
  have hclean : monitors.violation = none := Strategy.violation_of_answer hafter
  have hplain : (Strategy.replay (r.replay count) : Strategy γ).isPlain = true := rfl
  have hwatch := Strategy.answer_watch hplain r.isWatched op query hclean
  change (r.strategy count).answer op query monitors = if
    (monitors.checkedFor r.isWatched r.isFair).violation.isSome then _ else _ at hwatch
  rw [hanswer] at hwatch
  split at hwatch
  · next hfound =>
    simp only [Prod.mk.injEq] at hwatch
    obtain ⟨-, -, rfl⟩ := hwatch
    change (monitors.checkedFor r.isWatched r.isFair).violation = none at hviolation
    rw [hviolation] at hfound
    cases hfound
  · next hunviolated =>
    simp only [Prod.mk.injEq] at hwatch
    obtain ⟨rfl, rfl, -⟩ := hwatch
    exact ⟨_, r.replies count query, rfl⟩

/-- How a consultation of a replay that stands after as many decisions as are recorded leaves the
iteration: given back as it is but for the checked monitors, ended by a violation, or with one more
decision of the trace replayed. -/
inductive Consults (r : Recording) (query : Query) (it : Iteration γ) :
    Except Fault (Option (Option query.Answer)) × Iteration γ → Prop where
  | unknown (h : it.operation? it.current = none) :
      Consults r query it (.error (.unknownOperation it.current), it)
  | violated {after : Iteration γ}
      (hviolation : (it.monitors.checkedFor r.isWatched r.isFair).violation ≠ none)
      (htrace : after.trace = it.trace) (hfault : after.fault = it.fault)
      (hended : after.isRunning = false) : Consults r query it (.ok none, after)
  | diverged {reason : String} {monitors : Monitors} (h : r.Misses it.trace.size query) :
      Consults r query it (.error (.replayDivergence it.trace.size reason), { it with monitors })
  | nothing {monitors : Monitors} (h : query.alternatives = []) :
      Consults r query it (.ok (some none), { it with monitors })
  | recorded {value : query.Answer} {monitors : Monitors} (hmem : value ∈ query.alternatives)
      (hnext : r.trace.get? it.trace.size = some (query.decision value)) :
      Consults r query it (.ok (some (some value)),
        { it with strategy := r.strategy (it.trace.size + 1), monitors })

/-- A consultation of the strategy of a recording is one of the recording. -/
theorem consults {it : Iteration γ} (h : it.strategy = r.strategy it.trace.size) (query : Query) :
    r.Consults query it (it.consult query) := by
  have hconsulted := it.consulted query
  generalize it.consult query = result at hconsulted ⊢
  cases hconsulted with
  | unknown hop => exact .unknown hop
  | @violated op answer strategy monitors violation hop hanswer hviolation =>
    refine .violated (fun hchecked => ?_) (Iteration.trace_reportBug _ _ _) (fault_reportBug _ _ _)
      (Iteration.isRunning_reportBug _ _ _)
    obtain ⟨houtermost, hdecorated⟩ := r.isOutermost_strategy (γ := γ) it.trace.size
    obtain ⟨hmonitors, -⟩ := houtermost.answer_spec op query (Monitors.violation_of_checkedFor hchecked)
    rw [← h, hanswer, h, hdecorated, isFair_strategy] at hmonitors
    change monitors = _ at hmonitors
    rw [hmonitors, hchecked] at hviolation
    cases hviolation
  | @failed op answer strategy taken monitors fault hop hanswer hviolation hfault =>
    rw [h] at hanswer
    obtain ⟨replay, hreplies, rfl⟩ := replies_strategy hanswer hviolation
    rw [Strategy.takeFault_watch] at hfault
    cases hreplies with
    | nothing => cases hfault
    | recorded => cases hfault
    | diverged hmisses =>
      obtain ⟨hcause, rfl⟩ := Prod.mk.inj hfault
      obtain rfl := Option.some.inj hcause
      have hsame : ({ it with strategy := r.strategy it.trace.size, monitors } : Iteration γ) =
          { it with monitors } := by rw [← h]
      exact hsame ▸ .diverged hmisses
  | @answered op answer strategy taken monitors hop hanswer hviolation hfault =>
    rw [h] at hanswer
    obtain ⟨replay, hreplies, rfl⟩ := replies_strategy hanswer hviolation
    rw [Strategy.takeFault_watch] at hfault
    cases hreplies with
    | nothing hnil =>
      obtain ⟨-, rfl⟩ := Prod.mk.inj hfault
      have hsame : ({ it with strategy := r.strategy it.trace.size, monitors } : Iteration γ) =
          { it with monitors } := by rw [← h]
      exact hsame ▸ .nothing hnil
    | recorded hmem hnext =>
      obtain ⟨-, rfl⟩ := Prod.mk.inj hfault
      exact .recorded hmem hnext
    | diverged => cases hfault

/-! ### Calls -/

/-- An iteration has recorded the first decisions of a trace, and while it goes on its strategy has
replayed just these. -/
structure Replayed (r : Recording) (it : Iteration γ) : Prop where
  recorded : it.trace.toList <+: r.trace.toList
  faultless : it.fault = none
  strategy : it.isRunning = true → it.strategy = r.strategy it.trace.size

omit [RandomSource γ] in
/-- An iteration that has ended has recorded the first decisions of a trace if it had before. -/
theorem Replayed.ended {it after : Iteration γ} (h : r.Replayed it) (htrace : after.trace = it.trace)
    (hfault : after.fault = it.fault) (hended : after.isRunning = false) : r.Replayed after :=
  ⟨htrace ▸ h.recorded, hfault.trans h.faultless,
    fun hrunning => by cases hended.symm.trans hrunning⟩

omit [RandomSource γ] in
/-- An iteration that records the next decision of the trace has recorded the first ones. -/
theorem Replayed.push {it after : Iteration γ} (h : r.Replayed it) {decision : Decision}
    (hnext : r.trace.get? it.trace.size = some decision)
    (htrace : after.trace = it.trace.push decision) (hfault : after.fault = it.fault)
    (hstrategy : after.strategy = r.strategy (it.trace.size + 1)) : r.Replayed after := by
  refine ⟨?_, hfault.trans h.faultless, fun _ => ?_⟩
  · have hbegins := List.prefix_iff_eq_take.mp h.recorded
    have hlast : r.trace.toList[it.trace.toList.length]? = some decision := by
      rw [← hnext, Trace.get?, ← Array.getElem?_toList]
      rfl
    have hgrown : it.trace.toList ++ [decision] = r.trace.toList.take (it.trace.toList.length + 1) := by
      rw [List.take_add_one, hlast, ← hbegins]
      rfl
    rw [htrace, Trace.toList_push, hgrown]
    exact List.take_prefix _ _
  · rw [hstrategy, htrace, Trace.size, Trace.size, Trace.push, Array.size_push]

/-- Asking for a turn records the next decision of the trace or nothing. -/
theorem Replayed.scheduleNext {it : Iteration γ} (h : r.Replayed it) (hnumbered : it.IsNumbered) :
    r.Replayed it.scheduleNext.2 := by
  have hscheduled := it.scheduled
  generalize it.scheduleNext = result at hscheduled ⊢
  cases hscheduled with
  | ended => exact h
  | empty => exact h
  | completed =>
    exact h.ended (Iteration.trace_stop _ _) (fault_stop _ _) (Iteration.isRunning_stop _ _)
  | atBound =>
    exact h.ended (Iteration.trace_endAtBound _) (fault_endAtBound _)
      (Iteration.isRunning_endAtBound _)
  | consulted hbound hanswer hresult hopen hleft =>
    have hreplaying : it.enableWaiting.strategy = r.strategy it.enableWaiting.trace.size :=
      h.strategy hopen.1
    have hconsults := consults hreplaying (.operation it.enableWaiting.operations)
    rw [hanswer.eq] at hconsults
    cases hresult with
    | failed =>
      cases hconsults with
      | unknown => exact ⟨h.recorded, h.faultless, h.strategy⟩
      | diverged => exact ⟨h.recorded, h.faultless, h.strategy⟩
    | violated =>
      cases hconsults with
      | violated _ htrace hfault hended => exact h.ended htrace hfault hended
    | unanswered =>
      cases hconsults with
      | nothing =>
        exact h.ended (Iteration.trace_endWithoutChoice _) (fault_endWithoutChoice _)
          (Iteration.isRunning_endWithoutChoice _)
    | refused hrefused =>
      cases hconsults with
      | recorded hmem =>
        -- In a numbered table a possible answer is the place of an enabled operation.
        obtain ⟨op, hop, henabled⟩ := hnumbered.enableWaiting.operation?_eq_some hmem
        cases (hrefused op hop).symm.trans henabled
    | scheduled =>
      cases hconsults with
      | recorded hmem hnext => exact h.push hnext rfl rfl rfl

/-- Asking for a value records the next decision of the trace or nothing. -/
theorem Replayed.choose {it : Iteration γ} (h : r.Replayed it) (query : Query) :
    r.Replayed (it.choose query).2 := by
  have hchosen := it.chosen query
  generalize it.choose query = result at hchosen ⊢
  cases hchosen with
  | ended => exact h
  | atBound =>
    exact h.ended (Iteration.trace_endAtBound _) (fault_endAtBound _)
      (Iteration.isRunning_endAtBound _)
  | failed hbound hrunning hanswer =>
    have hconsults := consults (h.strategy hrunning) query
    rw [hanswer.eq] at hconsults
    cases hconsults with
    | unknown => exact h
    | diverged => exact ⟨h.recorded, h.faultless, h.strategy⟩
  | violated hbound hrunning hanswer =>
    have hconsults := consults (h.strategy hrunning) query
    rw [hanswer.eq] at hconsults
    cases hconsults with
    | violated _ htrace hfault hended => exact h.ended htrace hfault hended
  | unanswered hbound hrunning hanswer =>
    have hconsults := consults (h.strategy hrunning) query
    rw [hanswer.eq] at hconsults
    cases hconsults with
    | nothing => exact ⟨h.recorded, h.faultless, h.strategy⟩
  | given hbound hrunning hanswer =>
    have hconsults := consults (h.strategy hrunning) query
    rw [hanswer.eq] at hconsults
    cases hconsults with
    | recorded hmem hnext => exact h.push hnext rfl rfl rfl

/-- No call records anything but the next decision of the trace. -/
theorem Replayed.perform {it : Iteration γ} (h : r.Replayed it) (hnumbered : it.IsNumbered)
    (call : Call) : r.Replayed (it.perform call).2 := by
  cases call with
  | schedule => exact h.scheduleNext hnumbered
  | boolean => exact h.choose _
  | integer bound => exact h.choose _
  | reportBug kind message =>
    exact h.ended (Iteration.trace_reportBug _ _ _) (fault_reportBug _ _ _)
      (Iteration.isRunning_reportBug _ _ _)
  | stop outcome =>
    exact h.ended (Iteration.trace_stop _ _) (fault_stop _ _) (Iteration.isRunning_stop _ _)
  | _ => exact ⟨h.recorded, h.faultless, h.strategy⟩

/-- Whatever calls are made, nothing but the first decisions of the trace is recorded. -/
theorem replayed_after {it : Iteration γ} (h : r.Replayed it) (hnumbered : it.IsNumbered)
    (calls : List Call) : r.Replayed (it.after calls) ∧ (it.after calls).IsNumbered := by
  induction calls generalizing it with
  | nil => exact ⟨h, hnumbered⟩
  | cons call rest ih => exact ih (h.perform hnumbered call) (hnumbered.perform call)

/-! ### Divergences -/

/-- A turn that the next decision of the trace does not give out is a divergence, unless the step
bound is reached or a violation is found. -/
theorem Replayed.scheduleNext_of_misses {it : Iteration γ} (h : r.Replayed it)
    (hrunning : it.isRunning = true) {op : Operation} (hcurrent : it.operation? it.current = some op)
    (hbound : it.strategy.atBound = false)
    (hchecked : (it.monitors.checkedFor r.isWatched r.isFair).violation = none)
    (hmisses : r.Misses it.trace.size (.operation it.enableWaiting.operations)) :
    ∃ reason monitors, it.scheduleNext =
      (.error (.replayDivergence it.trace.size reason), { it.enableWaiting with monitors }) := by
  obtain ⟨hsome, hnext⟩ := misses_iff.mp hmisses
  obtain ⟨id, hid⟩ := List.exists_mem_of_ne_nil _ hsome
  obtain ⟨enabled, henabled, hable, -⟩ := Operation.mem_enabledIds.mp hid
  have hscheduled := it.scheduled
  generalize it.scheduleNext = result at hscheduled ⊢
  cases hscheduled with
  | ended hended => cases hended.symm.trans hrunning
  | empty hempty =>
    rw [Iteration.enableWaiting, hempty] at henabled
    cases henabled
  | completed hcompleted =>
    have hdone := List.all_eq_true.mp hcompleted enabled henabled
    rw [Operation.isEnabled] at hable
    revert hdone hable
    cases enabled.status <;> simp [Status.isCompleted, Status.isEnabled]
  | atBound hreached => cases hreached.symm.trans hbound
  | consulted _ hanswer hresult =>
    have hreplaying : it.enableWaiting.strategy = r.strategy it.enableWaiting.trace.size :=
      h.strategy hrunning
    have hconsults := consults hreplaying (.operation it.enableWaiting.operations)
    rw [hanswer.eq] at hconsults
    cases hconsults with
    | unknown hnone =>
      rw [Iteration.operation?_enableWaiting] at hnone
      change (it.operation? it.current).map _ = none at hnone
      rw [hcurrent] at hnone
      cases hnone
    | violated hviolation => exact absurd hchecked hviolation
    | diverged =>
      cases hresult with
      | failed => exact ⟨_, _, rfl⟩
    | nothing hnil => exact absurd hnil hsome
    | recorded hmem hrecorded => exact absurd hrecorded (hnext _ hmem)

/-- A value that the next decision of the trace does not give out is a divergence, unless the step
bound is reached or a violation is found. -/
theorem Replayed.choose_of_misses {it : Iteration γ} (h : r.Replayed it)
    (hrunning : it.isRunning = true) {op : Operation} (hcurrent : it.operation? it.current = some op)
    (hbound : it.strategy.atBound = false)
    (hchecked : (it.monitors.checkedFor r.isWatched r.isFair).violation = none)
    (hmisses : r.Misses it.trace.size query) :
    ∃ reason monitors, it.choose query =
      (.error (.replayDivergence it.trace.size reason), { it with monitors }) := by
  obtain ⟨hsome, hnext⟩ := misses_iff.mp hmisses
  have hconsults := consults (h.strategy hrunning) query
  have hchosen := it.chosen query
  generalize it.choose query = result at hchosen ⊢
  cases hchosen with
  | ended hended => cases hended.symm.trans hrunning
  | atBound hreached => cases hreached.symm.trans hbound
  | failed _ _ hanswer =>
    rw [hanswer.eq] at hconsults
    cases hconsults with
    | unknown hnone => cases hnone.symm.trans hcurrent
    | diverged => exact ⟨_, _, rfl⟩
  | violated _ _ hanswer =>
    rw [hanswer.eq] at hconsults
    cases hconsults with
    | violated hviolation => exact absurd hchecked hviolation
  | unanswered _ _ hanswer =>
    rw [hanswer.eq] at hconsults
    cases hconsults with
    | nothing hnil => exact absurd hnil hsome
  | given _ _ hanswer =>
    rw [hanswer.eq] at hconsults
    cases hconsults with
    | recorded hmem hrecorded => exact absurd hrecorded (hnext _ hmem)

end Recording

/-- What a turn asks the strategy: who has the turn next, or a value. -/
def Turn.query? : Turn γ σ μ → Option Query
  | .point ex => some (.operation ex.iteration.enableWaiting.operations)
  | .choice _ _ query _ _ => some query
  | .quiet _ | .bug .. | .fault .. => none

/-- An execution is given up as diverged after some decisions. -/
structure Execution.Diverged (trace : Trace) (ex : Execution γ σ μ) : Prop where
  aborted : ex.iteration.phase = .aborted
  fault : ∃ reason, ex.iteration.fault = some (.replayDivergence trace.size reason)
  trace : ex.iteration.trace = trace

/-- A diverged execution is over. -/
theorem Execution.Diverged.result? {trace : Trace} {ex : Execution γ σ μ} (h : ex.Diverged trace) :
    ex.result? = some (ex.iteration.finish, ex.memory) := by
  have hover : ex.isOver = true := by
    rw [Execution.isOver, Iteration.isRunning, h.aborted]
    rfl
  rw [Execution.result?, if_pos hover]

namespace Recording

variable {r : Recording} {program : Program σ μ}

/-- An execution whose iteration is given up for the first time as diverged is diverged. -/
theorem diverged_abort (it : Iteration γ) (hfaultless : it.fault = none) (reason : String)
    (ex : Execution γ σ μ) :
    ({ ex with iteration := it.abort (.replayDivergence it.trace.size reason) } :
      Execution γ σ μ).Diverged it.trace := by
  refine ⟨rfl, ⟨reason, ?_⟩, rfl⟩
  rw [Iteration.abort, hfaultless]
  rfl

variable [RandomSource γ]

/-- A turn that the next decision of the trace does not answer leaves the execution diverged. -/
theorem diverged_settle {turn : Turn γ σ μ} {query : Query} (hquery : turn.query? = some query)
    (h : r.Replayed turn.execution.iteration) (hrunning : turn.execution.iteration.isRunning = true)
    {op : Operation}
    (hcurrent : turn.execution.iteration.operation? turn.execution.iteration.current = some op)
    (hbound : turn.execution.iteration.strategy.atBound = false)
    (hchecked :
      (turn.execution.iteration.monitors.checkedFor r.isWatched r.isFair).violation = none)
    (hmisses : r.Misses turn.execution.iteration.trace.size query) :
    turn.settle.Diverged turn.execution.iteration.trace := by
  cases turn with
  | point ex =>
    obtain rfl := Option.some.inj hquery
    obtain ⟨reason, monitors, hnext⟩ :=
      h.scheduleNext_of_misses hrunning hcurrent hbound hchecked hmisses
    change ex.reschedule.Diverged _
    change ex.iteration.scheduleNext = _ at hnext
    rw [Execution.reschedule, hnext]
    exact diverged_abort { ex.iteration.enableWaiting with monitors } h.faultless reason ex
  | choice id next query wrap ex =>
    obtain rfl := Option.some.inj hquery
    obtain ⟨reason, monitors, hnext⟩ :=
      h.choose_of_misses hrunning hcurrent hbound hchecked hmisses
    change (ex.choose id next query wrap).Diverged _
    change ex.iteration.choose query = _ at hnext
    rw [Execution.choose, hnext]
    exact diverged_abort { ex.iteration with monitors } h.faultless reason ex
  | quiet => cases hquery
  | bug => cases hquery
  | fault => cases hquery

/-! ### Executions -/

omit [RandomSource γ] in
/-- An iteration that is about to replay. -/
def iteration (r : Recording) (monitors : Monitors) (coverage : Coverage) (depthBoundIsBug : Bool) :
    Iteration γ :=
  { strategy := r.strategy 0, monitors, coverage, depthBoundIsBug }

/-- A run has recorded the first decisions of the trace, and while it goes on its strategy has
replayed just these. -/
theorem replayed_run (r : Recording) (program : Program σ μ) (monitors : Monitors)
    (coverage : Coverage) (depthBoundIsBug : Bool) {fuel : Nat} {ex : Execution γ σ μ}
    (hex : (Execution.start program (r.iteration monitors coverage depthBoundIsBug)).run program
      fuel = ex) :
    ex.iteration.trace.toList <+: r.trace.toList ∧
      (ex.iteration.isRunning = true → r.Replayed ex.iteration) := by
  generalize hfirst : (r.iteration monitors coverage depthBoundIsBug : Iteration γ) = first at hex
  have hbegins : r.Replayed first := by
    rw [← hfirst]
    exact ⟨List.nil_prefix, rfl, fun _ => rfl⟩
  have hnumbered : first.IsNumbered := by
    rw [← hfirst]
    exact fun id op hop => by cases hop
  have hdriven : first.IsDriven ex.iteration := by
    rw [← hex]
    exact Execution.isDriven_start program first fuel
  rcases hdriven with ⟨calls, -, heq⟩ | ⟨before, fault, ⟨calls, -, rfl⟩, heq⟩
  · have hafter := (replayed_after hbegins hnumbered calls).1
    rw [heq]
    exact ⟨hafter.recorded, fun _ => hafter⟩
  · have hbefore := (replayed_after hbegins hnumbered calls).1
    rw [heq]
    exact ⟨hbefore.recorded, fun hrunning => by cases hrunning⟩

/-- The operation whose turn it is is known when a turn asks for something. -/
theorem exists_current {ex : Execution γ σ μ} (hsettled : ex.Settled) {turn : Turn γ σ μ}
    (hturn : ex.turn? program = some turn) :
    ∃ op, turn.execution.iteration.operation? turn.execution.iteration.current = some op := by
  obtain ⟨-, hof⟩ := Execution.isOf_turn hturn
  obtain ⟨stage, hstage⟩ : ∃ stage, ex.stage? ex.iteration.current = some stage := by
    cases hnone : ex.stage? ex.iteration.current with
    | some stage => exact ⟨stage, rfl⟩
    | none =>
      rw [Execution.turn?] at hturn
      dsimp only at hturn
      rw [hnone] at hturn
      split at hturn <;> cases hturn
  obtain ⟨op, hop⟩ := hsettled.exists_operation? hstage
  have hknown := (List.getElem?_eq_some_iff.mp hop).1
  have hlength : ex.iteration.operations.length ≤ turn.execution.iteration.operations.length := by
    have hmade := Execution.isMadeBy_turn hturn
    cases turn with
    | bug => exact hmade.1.length_operations
    | choice => exact hmade.1.length_operations
    | quiet => exact hmade.length_operations
    | point => exact hmade.length_operations
    | fault => exact hmade.length_operations
  rw [hof.sameRun.current]
  exact ⟨_, List.getElem?_eq_getElem (Nat.lt_of_lt_of_le hknown hlength)⟩

/-- The next step of an execution asks for something, neither the step bound is reached nor a violation
found, and the next decision of the trace is no answer. -/
def MissesNext (r : Recording) (program : Program σ μ) (ex : Execution γ σ μ) : Prop :=
  ∃ turn query, ex.turn? program = some turn ∧ turn.query? = some query ∧
    ex.iteration.strategy.atBound = false ∧
    (turn.execution.iteration.monitors.checkedFor r.isWatched r.isFair).violation = none ∧
    r.Misses ex.iteration.trace.size query

/-- A step whose query the next decision of the trace does not answer is the last one of its run. -/
theorem diverged_run {monitors : Monitors} {coverage : Coverage} {depthBoundIsBug : Bool}
    {fuel : Nat} {ex : Execution γ σ μ}
    (hex : (Execution.start program (r.iteration monitors coverage depthBoundIsBug)).run program
      fuel = ex) (h : r.MissesNext program ex) (more : Nat) :
    (ex.run program (more + 1)).Diverged ex.iteration.trace := by
  obtain ⟨turn, query, hturn, hquery, hbound, hchecked, hmisses⟩ := h
  obtain ⟨hrunning, hof⟩ := Execution.isOf_turn hturn
  have hsame := hof.sameRun
  have hsettled : ex.Settled := by
    rw [← hex]
    exact (Execution.settled_start program rfl).run program fuel
  have hreplayed := (r.replayed_run program monitors coverage depthBoundIsBug hex).2 hrunning
  have hbefore : r.Replayed turn.execution.iteration := by
    obtain ⟨operations, coverage, monitors, heq, -⟩ := hsame
    rw [heq]
    exact ⟨hreplayed.recorded, hreplayed.faultless, hreplayed.strategy⟩
  obtain ⟨op, hop⟩ := exists_current hsettled hturn
  have hdiverged := diverged_settle hquery hbefore (hsame.isRunning.trans hrunning) hop
    (hsame.strategy ▸ hbound) hchecked (hsame.trace ▸ hmisses)
  rw [hsame.trace] at hdiverged
  have hstep : ex.step program = some turn.settle := by
    rw [Execution.step_eq_settle, hturn, Option.map_some]
  have hended : turn.settle.iteration.isRunning = false := by
    rw [Iteration.isRunning, hdiverged.aborted]
    rfl
  rw [Execution.run_succ hstep, Execution.run_eq_self (Execution.step_eq_none hended)]
  exact hdiverged

/-! ### Reports -/

/-- A campaign whose next iteration is given up as diverged ends with the divergence. -/
theorem exists_explore_of_diverged {campaign : Campaign} {p : Campaign.Progress γ μ} {fuel : Nat}
    {trace : Trace} (h : (p.last campaign.config program fuel).Diverged trace) (budget : Nat) :
    ∃ reason memory, campaign.explore program fuel (budget + 1) p =
      some (p.fail (.replayDivergence trace.size reason) memory) := by
  obtain ⟨reason, hfault⟩ := h.fault
  have hrun : program.run fuel (p.nextIteration campaign.config) =
      some ((p.last campaign.config program fuel).iteration.finish,
        (p.last campaign.config program fuel).memory) := h.result?
  have hfinish : (p.last campaign.config program fuel).iteration.finish.fault =
      some (.replayDivergence trace.size reason) := hfault
  refine ⟨reason, (p.last campaign.config program fuel).memory, ?_⟩
  rw [Campaign.explore, hrun]
  dsimp only
  rw [hfinish]

/-- How an iteration replays a trace on a program. After any number of steps it has recorded the first
decisions of the trace. If its next step asks for what the next decision of the trace does not answer,
then this step is the last one: the iteration has no outcome and its trace does not grow, and a
campaign reports nothing of it but the divergence after as many decisions as were replayed. -/
structure KeepsTo (r : Recording) (program : Program σ μ) (first : Iteration γ) (fuel : Nat) : Prop where
  recorded : ((Execution.start program first).run program fuel).iteration.trace.toList <+:
    r.trace.toList
  diverges : r.MissesNext program ((Execution.start program first).run program fuel) →
    ∀ more, ((Execution.start program first).run program (fuel + (more + 1))).Diverged
      ((Execution.start program first).run program fuel).iteration.trace
  reported : r.MissesNext program ((Execution.start program first).run program fuel) →
    ∀ (campaign : Campaign) (p : Campaign.Progress γ μ), p.nextIteration campaign.config = first →
      ∀ more budget, ∃ reason memory,
        campaign.explore program (fuel + (more + 1)) (budget + 1) p = some (p.fail
          (.replayDivergence
            ((Execution.start program first).run program fuel).iteration.trace.size reason) memory)

/-- Whatever program a trace is replayed on, an iteration records decisions of the trace and nothing
else, and ends as diverged when the next one is no answer. -/
theorem keepsTo_iteration (r : Recording) (program : Program σ μ) (monitors : Monitors)
    (coverage : Coverage) (depthBoundIsBug : Bool) (fuel : Nat) :
    r.KeepsTo program (r.iteration monitors coverage depthBoundIsBug : Iteration γ) fuel := by
  generalize hex : (Execution.start program
    (r.iteration monitors coverage depthBoundIsBug : Iteration γ)).run program fuel = ex
  have hdiverges (hmisses : r.MissesNext program ex) (more : Nat) :
      ((Execution.start program (r.iteration monitors coverage depthBoundIsBug : Iteration γ)).run
        program (fuel + (more + 1))).Diverged ex.iteration.trace := by
    rw [Execution.run_add, hex]
    exact diverged_run hex hmisses more
  refine ⟨?_, ?_, ?_⟩
  · rw [hex]
    exact (r.replayed_run program monitors coverage depthBoundIsBug hex).1
  · rw [hex]
    exact hdiverges
  · rw [hex]
    intro hmisses campaign p hfirst more budget
    have hdiverged := hdiverges hmisses more
    rw [← hfirst] at hdiverged
    exact exists_explore_of_diverged hdiverged budget

/-- A program that draws a truth value and yields, again and again. -/
def flipsAndYields : Program Unit Unit where
  main := ()
  memory := ()
  resume _ _ reply memory :=
    (match reply with
      | .boolean _ => .call .yield ()
      | _ => .call .boolean (), memory)

/-- One truth value, without a bound. -/
def oneFlip : Recording where
  trace := .ofList [.boolean true]
  bound := 0
  isFair := false
  isWatched := true

/-- The replay of one truth value records it and ends at the turn that is asked for after it. -/
theorem keepsTo_iteration_oneFlip :
    ((Execution.start flipsAndYields (oneFlip.iteration (.ofNames 0 []) {} false : Iteration Tape)).run
      flipsAndYields 3).Diverged (.ofList [.boolean true]) := by
  have hkeeps : oneFlip.KeepsTo flipsAndYields
      (oneFlip.iteration (.ofNames 0 []) {} false : Iteration Tape) 2 :=
    keepsTo_iteration oneFlip flipsAndYields (.ofNames 0 []) {} false 2
  exact hkeeps.diverges ⟨_, _, rfl, rfl, rfl, rfl, by decide, fun _ hnext => by cases hnext⟩ 0

end Recording

end ScheduleExplorer
