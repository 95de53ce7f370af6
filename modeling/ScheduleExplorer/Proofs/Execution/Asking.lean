import ScheduleExplorer.Proofs.Execution.Driver
import ScheduleExplorer.Proofs.Strategy.Handoffs

/-!
# What calls make of a strategy

A call of a running iteration either leaves it running or ends it. If the iteration goes on, its
strategy has been asked at most once, and what it has answered is given out and recorded. If the
iteration ends, nothing is given out, and apart from a query that was in vain the strategy is at most
told of a bug. After the end nothing happens to it.

An iteration ends at its step bound in a call for a turn or for a value. Then the strategy was at its
bound, whatever the ending: a hot monitor that a query finds is too hot, and a monitor is hot at the
bound only at the bound.
-/

namespace ScheduleExplorer

variable {γ : Type} [RandomSource γ]

/-- Whether a call is one for a turn or for a value. -/
def Call.asks : Call → Bool
  | .schedule | .boolean | .integer _ => true
  | _ => false

namespace Iteration

open Strategy (Asked Place Reached)

/-! ### Endings -/

/-- A strategy is another one, which may have been told of a bug. -/
def IsTold (mid after : Strategy γ) : Prop :=
  after = mid ∨ after = mid.notifyBug

section Endings

variable (it : Iteration γ)

omit [RandomSource γ]

/-- Stopping leaves the strategy alone. -/
theorem strategy_stop (outcome : Outcome) : (it.stop outcome).strategy = it.strategy := by
  rw [stop]
  split <;> rfl

/-- Reporting a bug tells the strategy of it and does nothing else to it. -/
theorem isTold_reportBug (kind : BugKind) (message : String) :
    IsTold it.strategy (it.reportBug kind message).strategy := by
  rw [reportBug]
  split
  · exact .inr rfl
  · exact .inl rfl

/-- Reaching the bound does nothing to the strategy, but a bug is told. -/
theorem isTold_endAtBound : IsTold it.strategy it.endAtBound.strategy := by
  rw [endAtBound_eq]
  unfold closeAtBound
  split
  · exact isTold_reportBug _ _ _
  · split
    · exact isTold_reportBug _ _ _
    · exact .inl (strategy_stop _ _)

/-- Ending without a choice does nothing to the strategy, but a deadlock is told. -/
theorem isTold_endWithoutChoice : IsTold it.strategy it.endWithoutChoice.strategy := by
  rw [endWithoutChoice]
  split
  · exact isTold_reportBug _ _ _
  · exact .inl (strategy_stop _ _)

end Endings

/-! ### Calls before the end -/

/-- While an iteration goes on, the parts of its strategy are on time and no fault is pending. -/
structure Steady (it : Iteration γ) : Prop where
  numbered : it.IsNumbered
  reached : ∃ taken, Reached taken it.strategy
  onTime : it.isRunning = true → it.strategy.IsOnTime
  faultless : it.isRunning = true → it.strategy.IsFaultless

/-- What a call makes of a running iteration. Either the iteration goes on, the strategy has been
asked if a decision is given out, and the decision is recorded; or the iteration ends, and nothing is
given out or recorded. -/
inductive Performed (it : Iteration γ) : CallReply × Iteration γ → Prop where
  | goesOn {reply : CallReply} {after : Iteration γ} (hrunning : after.isRunning = true)
      (hasked : Asked reply.decision?.isSome it.strategy after.strategy)
      (hopen : reply.decision?.isSome = true → it.strategy.atBound = false)
      (htrace : after.trace.toList = it.trace.toList ++ reply.decision?.toList)
      (hclean : it.monitors.violation = none → after.monitors.violation = none)
      (hsteady : after.Steady) : Performed it (reply, after)
  | ends {reply : CallReply} {after : Iteration γ} {answered : Bool} {mid : Strategy γ}
      (hended : after.isRunning = false) (hquiet : reply.decision? = none)
      (hasked : Asked answered it.strategy mid) (htold : IsTold mid after.strategy)
      (htrace : after.trace = it.trace)
      (hfaultless : it.monitors.violation = none → mid.IsFaultless)
      (hsteady : after.Steady) : Performed it (reply, after)

section Performed

variable {it after : Iteration γ} {reply : CallReply}

/-- A strategy that may have been told of a bug is reached if it was before. -/
theorem IsTold.reached {mid after : Strategy γ} (h : IsTold mid after)
    (hmid : ∃ taken, Reached taken mid) : ∃ taken, Reached taken after := by
  obtain ⟨taken, hreached⟩ := hmid
  rcases h with rfl | rfl
  · exact ⟨taken, hreached⟩
  · exact ⟨taken, hreached.notifyBug⟩

omit [RandomSource γ] in
/-- A table with the same operations is numbered alike. -/
theorem IsNumbered.of_operations (h : it.IsNumbered) (hsame : after.operations = it.operations) :
    after.IsNumbered := by
  intro id op hop
  rw [operation?, hsame] at hop
  exact h id op hop

/-- A call that does not concern the strategy, nor the trace or a violation. -/
theorem performed_quietly (hit : it.Steady) (hrunning : it.isRunning = true)
    (hnumbered : after.IsNumbered) (hphase : after.phase = it.phase)
    (hstrategy : after.strategy = it.strategy) (htrace : after.trace = it.trace)
    (hmonitors : after.monitors.violation = it.monitors.violation)
    (hquiet : reply.decision? = none) : Performed it (reply, after) := by
  have hstill : after.isRunning = it.isRunning := by rw [isRunning, isRunning, hphase]
  refine .goesOn (hstill.trans hrunning) ?_ ?_ ?_ (fun hclean => hmonitors.trans hclean) ?_
  · rw [hquiet, hstrategy]
    exact .skipped rfl
  · intro hsome
    rw [hquiet] at hsome
    cases hsome
  · rw [hquiet, htrace, Option.toList_none, List.append_nil]
  · refine ⟨hnumbered, ?_, fun _ => ?_, fun _ => ?_⟩
    · rw [hstrategy]
      exact hit.reached
    · rw [hstrategy]
      exact hit.onTime hrunning
    · rw [hstrategy]
      exact hit.faultless hrunning

/-- A call that ends the iteration after a query that was in vain, or without one. -/
theorem performed_ending {answered : Bool} {mid : Strategy γ} (hended : after.isRunning = false)
    (hquiet : reply.decision? = none) (hasked : Asked answered it.strategy mid)
    (hreached : ∃ taken, Reached taken mid) (htold : IsTold mid after.strategy)
    (htrace : after.trace = it.trace) (hfaultless : it.monitors.violation = none → mid.IsFaultless)
    (hnumbered : after.IsNumbered) : Performed it (reply, after) := by
  refine .ends hended hquiet hasked htold htrace hfaultless
    ⟨hnumbered, htold.reached hreached, fun hrunning => ?_, fun hrunning => ?_⟩ <;>
  cases hended.symm.trans hrunning

end Performed

/-- An iteration goes on after a consultation: no fault is pending, and no violation is recorded
unless there was one before. -/
structure GoesOn (before : Monitors) (after : Iteration γ) : Prop where
  running : after.isRunning = true
  reached : ∃ taken, Reached taken after.strategy
  faultless : after.strategy.IsFaultless
  clean : before.violation = none → after.monitors.violation = none

/-- How a consultation leaves the strategy: asked in vain, with a fault taken from it; asked in vain
and told of a violation; or asked for the answer that is given. -/
inductive Leaves (query : Query) (it : Iteration γ) :
    Except Fault (Option (Option query.Answer)) × Iteration γ → Prop where
  | failed {fault : Fault} {after : Iteration γ} (hasked : Asked false it.strategy after.strategy)
      (hafter : GoesOn it.monitors after) : Leaves query it (.error fault, after)
  | violated {answered : Bool} {mid : Strategy γ} {after : Iteration γ}
      (hasked : Asked answered it.strategy mid) (hreached : ∃ taken, Reached taken mid)
      (htold : IsTold mid after.strategy) (hended : after.isRunning = false)
      (hfaultless : it.monitors.violation = none → mid.IsFaultless) :
      Leaves query it (.ok none, after)
  | answered {answer : Option query.Answer} {after : Iteration γ}
      (hasked : Asked answer.isSome it.strategy after.strategy) (hafter : GoesOn it.monitors after)
      (hmem : ∀ value, answer = some value → value ∈ query.alternatives) :
      Leaves query it (.ok (some answer), after)

section Consultations

variable [BoundedRandomSource γ] {query : Query} {it : Iteration γ}

/-- The strategy of a steady iteration is asked, and then a fault that it may have is taken. -/
theorem Steady.taken (hit : it.Steady) (hrunning : it.isRunning = true) {op : Operation}
    (hasked : query.IsAskedBy op) {answer : Option query.Answer} {strategy taken : Strategy γ}
    {monitors : Monitors} {fault : Option Fault}
    (hanswer : it.strategy.answer op query it.monitors = (answer, strategy, monitors))
    (hviolation : monitors.violation = none) (hfault : strategy.takeFault = (fault, taken)) :
    Asked answer.isSome it.strategy taken ∧
      GoesOn it.monitors { it with strategy := taken, monitors } ∧
      (answer.isSome = true → fault = none) := by
  obtain ⟨count, hreached⟩ := hit.reached
  have hafter := Strategy.asked_answer hasked hreached.counts.1 it.monitors
  have htaken := (hreached.answer hasked it.monitors).takeFault
  obtain ⟨hsome, hfaultless⟩ :=
    Strategy.isFaultless_answer (hit.faultless hrunning) op query it.monitors
  have hleft := hafter.takeFault (hit.faultless hrunning)
  simp only [hanswer, hfault, Strategy.IsFaultless] at hsome hfaultless hleft htaken
  exact ⟨hleft, ⟨hrunning, ⟨_, htaken⟩, hfaultless, fun _ => hviolation⟩, hsome⟩

/-- How a consultation leaves a steady iteration. -/
theorem Consulted.leaves {result : Except Fault (Option (Option query.Answer)) × Iteration γ}
    (h : Consulted query it result) (hit : it.Steady) (hrunning : it.isRunning = true)
    (hquery : ∀ op, it.operation? it.current = some op → query.IsAskedBy op) :
    Leaves query it result := by
  cases h with
  | unknown => exact .failed (.skipped rfl) ⟨hrunning, hit.reached, hit.faultless hrunning, id⟩
  | @violated op answer strategy monitors violation hop hanswer hviolation =>
    obtain ⟨count, hreached⟩ := hit.reached
    have hasked := Strategy.asked_answer (hquery op hop) hreached.counts.1 it.monitors
    have hmid := hreached.answer (hquery op hop) it.monitors
    rw [hanswer] at hasked hmid
    refine .violated hasked ⟨_, hmid⟩ (isTold_reportBug _ _ _) (isRunning_reportBug _ _ _) ?_
    intro hclean
    -- The query that finds a violation leaves the strategy alone.
    have hfound : (it.strategy.answer op query it.monitors).2.2.violation = some violation := by
      rw [hanswer]
      exact hviolation
    obtain ⟨-, hsame, -⟩ := Strategy.answer_of_violation hclean hfound
    rw [hanswer] at hsame
    rw [hsame]
    exact hit.faultless hrunning
  | @failed op answer strategy taken monitors fault hop hanswer hviolation hfault =>
    obtain ⟨hasked, hafter, hsome⟩ := hit.taken hrunning (hquery op hop) hanswer hviolation hfault
    have hnone : answer = none := by
      rw [← Option.not_isSome_iff_eq_none]
      intro hanswered
      cases hsome hanswered
    rw [hnone] at hasked
    exact .failed hasked hafter
  | @answered op answer strategy taken monitors hop hanswer hviolation hfault =>
    obtain ⟨hasked, hafter, -⟩ := hit.taken hrunning (hquery op hop) hanswer hviolation hfault
    obtain ⟨count, hbefore⟩ := hit.reached
    have hmem := (Strategy.answered (hquery op hop) hbefore.counts.1 it.monitors).mem
    rw [hanswer] at hmem
    exact .answered hasked hafter hmem

end Consultations

section Queries

variable [BoundedRandomSource γ] {it : Iteration γ}

omit [BoundedRandomSource γ] in
/-- A query without an answer after which the iteration goes on. -/
theorem performed_unanswered (hit : it.Steady) (hrunning : it.isRunning = true) {reply : CallReply}
    {after : Iteration γ} (hasked : Asked false it.strategy after.strategy)
    (hafter : GoesOn it.monitors after) (hnumbered : after.IsNumbered) (htrace : after.trace = it.trace)
    (hquiet : reply.decision? = none) : Performed it (reply, after) := by
  have hfalse : reply.decision?.isSome = false := by rw [hquiet, Option.isSome_none]
  refine .goesOn hafter.running (hfalse ▸ hasked) ?_ ?_ hafter.clean
    ⟨hnumbered, hafter.reached, fun _ => ?_, fun _ => hafter.faultless⟩
  · intro hsome
    cases hfalse.symm.trans hsome
  · rw [hquiet, htrace, Option.toList_none, List.append_nil]
  · exact hasked.isOnTime (hit.onTime hrunning) fun hsome => by cases hsome

omit [BoundedRandomSource γ] in
/-- A query with an answer, which is recorded. -/
theorem performed_answered (hit : it.Steady) (hrunning : it.isRunning = true) {reply : CallReply}
    {left after : Iteration γ} {decision : Decision} (hopen : it.strategy.atBound = false)
    (hasked : Asked true it.strategy left.strategy) (hleft : GoesOn it.monitors left)
    (hnumbered : after.IsNumbered) (hstrategy : after.strategy = left.strategy)
    (hphase : after.phase = left.phase) (hmonitors : after.monitors = left.monitors)
    (htrace : after.trace = it.trace.push decision) (hgiven : reply.decision? = some decision) :
    Performed it (reply, after) := by
  have htrue : reply.decision?.isSome = true := by rw [hgiven, Option.isSome_some]
  have hstill : after.isRunning = true := by
    rw [isRunning, hphase]
    exact hleft.running
  rw [← hstrategy] at hasked
  refine .goesOn hstill (htrue ▸ hasked) (fun _ => hopen) ?_
    (fun hclean => hmonitors ▸ hleft.clean hclean)
    ⟨hnumbered, hstrategy ▸ hleft.reached, fun _ => ?_, fun _ => hstrategy ▸ hleft.faultless⟩
  · rw [hgiven, htrace, Trace.toList_push, Option.toList_some]
  · exact hasked.isOnTime (hit.onTime hrunning) fun _ => hopen

/-- What a call for a turn makes of a running iteration. -/
theorem performed_scheduleNext (hit : it.Steady) (hrunning : it.isRunning = true) :
    Performed it (reply .operation it.scheduleNext) := by
  have hscheduled := it.scheduled
  generalize it.scheduleNext = result at hscheduled
  have hnumbered := hit.numbered.enableWaiting
  have hwaiting : it.enableWaiting.Steady := ⟨hnumbered, hit.reached, hit.onTime, hit.faultless⟩
  cases hscheduled with
  | ended hended => cases hended.symm.trans hrunning
  | empty => exact performed_quietly hit hrunning hit.numbered rfl rfl rfl rfl rfl
  | completed =>
    exact performed_ending (isRunning_stop _ _) rfl (.skipped rfl) hit.reached
      (.inl (strategy_stop _ _)) (trace_stop _ _) (fun _ => hit.faultless hrunning)
      (hnumbered.of_operations (sameTable_stop _ _).operations)
  | atBound =>
    exact performed_ending (isRunning_endAtBound _) rfl (.skipped rfl) hit.reached
      (isTold_endAtBound _) (trace_endAtBound _) (fun _ => hit.faultless hrunning)
      (hnumbered.of_operations (sameTable_endAtBound _).operations)
  | consulted hbelow hanswer hresult =>
    have hleaves := hanswer.leaves hwaiting hrunning fun op hop => hnumbered.isAskedBy hop
    have htable := hanswer.operations
    have htrace := hanswer.trace
    cases hresult with
    | failed =>
      cases hleaves with
      | failed hasked hafter =>
        exact performed_unanswered hit hrunning hasked hafter (hnumbered.of_operations htable) htrace rfl
    | violated =>
      cases hleaves with
      | violated hasked hreached htold hended hfaultless =>
        exact performed_ending hended rfl hasked hreached htold htrace hfaultless
          (hnumbered.of_operations htable)
    | @unanswered after =>
      cases hleaves with
      | answered hasked hafter =>
        have hended := (sameTable_endWithoutChoice after).operations.trans htable
        exact performed_ending (isRunning_endWithoutChoice _) rfl hasked hafter.reached
          (isTold_endWithoutChoice _) ((trace_endWithoutChoice _).trans htrace)
          (fun _ => hafter.faultless) (hnumbered.of_operations hended)
    | @refused next fault after hrefused =>
      cases hleaves with
      | answered hasked hafter hmem =>
        -- The answer is the number of an enabled operation, and the table is numbered by places.
        have henabled : next ∈ Operation.enabledIds after.operations := by
          rw [htable]
          exact hmem next rfl
        obtain ⟨op, hop, hable⟩ :=
          (hnumbered.of_operations htable).operation?_eq_some henabled
        cases (hrefused op hop).symm.trans hable
    | @scheduled next op after hop henabled =>
      cases hleaves with
      | answered hasked hafter hmem =>
        exact performed_answered hit hrunning hbelow hasked hafter
          ((hnumbered.of_operations htable).of_operations rfl) rfl rfl rfl (htrace ▸ rfl) rfl

/-- What a call for a value makes of a running iteration. -/
theorem performed_choose {query : Query} (hquery : query.IsValue) (hit : it.Steady)
    (hrunning : it.isRunning = true) : Performed it (reply query.decision (it.choose query)) := by
  have hchosen := it.chosen query
  generalize it.choose query = result at hchosen
  have hleaves {result : Except Fault (Option (Option query.Answer)) × Iteration γ}
      (hanswer : Consulted query it result) : Leaves query it result :=
    hanswer.leaves hit hrunning fun op _ => hquery.isAskedBy op
  cases hchosen with
  | ended hended => cases hended.symm.trans hrunning
  | atBound =>
    exact performed_ending (isRunning_endAtBound _) rfl (.skipped rfl) hit.reached
      (isTold_endAtBound _) (trace_endAtBound _) (fun _ => hit.faultless hrunning)
      (hit.numbered.of_operations (sameTable_endAtBound _).operations)
  | failed _ _ hanswer =>
    cases hleaves hanswer with
    | failed hasked hafter =>
      exact performed_unanswered hit hrunning hasked hafter
        (hit.numbered.of_operations hanswer.operations) hanswer.trace rfl
  | violated _ _ hanswer =>
    cases hleaves hanswer with
    | violated hasked hreached htold hended hfaultless =>
      exact performed_ending hended rfl hasked hreached htold hanswer.trace hfaultless
        (hit.numbered.of_operations hanswer.operations)
  | unanswered _ _ hanswer =>
    cases hleaves hanswer with
    | answered hasked hafter =>
      exact performed_unanswered hit hrunning hasked hafter
        (hit.numbered.of_operations hanswer.operations) hanswer.trace rfl
  | given hbelow _ hanswer =>
    cases hleaves hanswer with
    | answered hasked hafter =>
      have hnumbered := hit.numbered.of_operations hanswer.operations
      exact performed_answered hit hrunning hbelow hasked hafter (hnumbered.of_operations rfl) rfl rfl
        rfl (hanswer.trace ▸ rfl) rfl

/-- What any call makes of a running iteration. -/
theorem performed (hit : it.Steady) (hrunning : it.isRunning = true) (call : Call) :
    Performed it (it.perform call) := by
  cases call with
  | register name =>
    exact performed_quietly hit hrunning (hit.numbered.register name) rfl rfl rfl rfl rfl
  | change id transition =>
    exact performed_quietly hit hrunning (hit.numbered.update id fun op => id_apply op transition)
      rfl rfl rfl rfl rfl
  | recordState hashes =>
    exact performed_quietly hit hrunning (hit.numbered.update it.current fun _ => rfl)
      rfl rfl rfl rfl rfl
  | schedule => exact performed_scheduleNext hit hrunning
  | boolean =>
    have hquery : (Query.boolean 2).IsValue := trivial
    exact performed_choose hquery hit hrunning
  | integer bound =>
    have hquery : (Query.integer bound).IsValue := trivial
    exact performed_choose hquery hit hrunning
  | reportBug kind message =>
    exact performed_ending (isRunning_reportBug _ _ _) rfl (.skipped rfl) hit.reached
      (isTold_reportBug _ _ _) (trace_reportBug _ _ _) (fun _ => hit.faultless hrunning)
      (hit.numbered.of_operations (sameTable_reportBug _ _ _).operations)
  | stop outcome =>
    exact performed_ending (isRunning_stop _ _) rfl (.skipped rfl) hit.reached
      (.inl (strategy_stop _ _)) (trace_stop _ _) (fun _ => hit.faultless hrunning)
      (hit.numbered.of_operations (sameTable_stop _ _).operations)
  | setMonitor id isHot =>
    exact performed_quietly hit hrunning (hit.numbered.of_operations rfl) rfl rfl rfl rfl rfl

end Queries

/-! ### Calls after the end -/

section Ended

variable {it : Iteration γ}

/-- After the end nothing is given out, and the strategy and the trace stay as they are. -/
theorem perform_of_ended (h : it.isRunning = false) (call : Call) :
    (it.perform call).1.decision? = none ∧ (it.perform call).2.isRunning = false ∧
      (it.perform call).2.strategy = it.strategy ∧ (it.perform call).2.trace = it.trace := by
  cases call with
  | schedule =>
    have hnext : it.scheduleNext = (.ok none, it) := (Scheduled.ended h).eq
    rw [perform, hnext]
    exact ⟨rfl, h, rfl, rfl⟩
  | boolean =>
    have hchoose : it.choose (.boolean 2) = (.ok none, it) := (Chosen.ended h).eq
    rw [perform, hchoose]
    exact ⟨rfl, h, rfl, rfl⟩
  | integer bound =>
    have hchoose : it.choose (.integer bound) = (.ok none, it) := (Chosen.ended h).eq
    rw [perform, hchoose]
    exact ⟨rfl, h, rfl, rfl⟩
  | reportBug kind message =>
    rw [perform, Iteration.reportBug, h]
    exact ⟨rfl, h, rfl, rfl⟩
  | stop outcome =>
    rw [perform, Iteration.stop, h]
    exact ⟨rfl, h, rfl, rfl⟩
  | _ => exact ⟨rfl, h, rfl, rfl⟩

/-- However many calls there are after the end, the strategy and the trace stay as they are. -/
theorem after_of_ended (h : it.isRunning = false) (calls : List Call) :
    (it.after calls).isRunning = false ∧ (it.after calls).strategy = it.strategy ∧
      (it.after calls).trace = it.trace := by
  induction calls generalizing it with
  | nil => exact ⟨h, rfl, rfl⟩
  | cons call rest ih =>
    obtain ⟨-, hended, hstrategy, htrace⟩ := perform_of_ended h call
    obtain ⟨hstill, hsame, hrecord⟩ := ih hended
    exact ⟨hstill, hsame.trans hstrategy, hrecord.trans htrace⟩

end Ended

/-! ### Ends at the step bound -/

/-- An iteration has ended as it ends at its step bound: no bug, an assertion because the bound counts
as a bug, or a monitor that is hot at the bound and was not found before. -/
def HasMetBound (before : Monitors) (it : Iteration γ) : Prop :=
  it.outcome? = some .stepBoundReached ∨ it.outcome? = some (.bugFound .assertion) ∨
    (it.outcome? = some (.bugFound .liveness) ∧ before.violation = none ∧
      ∃ monitor name, it.monitors.violation = some (.hotAtBound monitor name))

/-- A call for a turn or for a value ends the iteration at its step bound. -/
structure EndsAtBound (it : Iteration γ) (call : Call) : Prop where
  asks : call.asks = true
  running : it.isRunning = true
  ending : HasMetBound it.monitors (it.perform call).2

section Bound

variable {it : Iteration γ}

omit [RandomSource γ] in
/-- An iteration that goes on has no outcome. -/
theorem outcome?_of_isRunning (h : it.isRunning = true) : it.outcome? = none := by
  rw [isRunning, decide_eq_true_eq] at h
  rw [outcome?, h]

omit [RandomSource γ] in
/-- An iteration without a choice ends with a deadlock, or it is completed. -/
theorem outcome?_endWithoutChoice (h : it.isRunning = true) :
    it.endWithoutChoice.outcome? = some (.bugFound .deadlock) ∨
      it.endWithoutChoice.outcome? = some .completed := by
  rw [endWithoutChoice]
  split
  · exact .inl (by rw [outcome?, phase_reportBug h])
  · exact .inr (by rw [outcome?, phase_stop h])

omit [RandomSource γ] in
/-- An iteration that goes on has not ended. -/
theorem not_hasMetBound_of_isRunning (h : it.isRunning = true) (before : Monitors) :
    ¬ HasMetBound before it := by
  rw [HasMetBound, outcome?_of_isRunning h]
  rintro (h | h | h) <;> simp at h

omit [RandomSource γ] in
/-- An iteration that ends without a choice has not met its bound. -/
theorem not_hasMetBound_endWithoutChoice (h : it.isRunning = true) (before : Monitors) :
    ¬ HasMetBound before it.endWithoutChoice := by
  rcases outcome?_endWithoutChoice h with houtcome | houtcome <;>
  · rw [HasMetBound, houtcome]
    simp

/-- A consultation does not meet the bound. -/
theorem Consulted.not_hasMetBound {query : Query}
    {result : Except Fault (Option (Option query.Answer)) × Iteration γ}
    (h : Consulted query it result) (hrunning : it.isRunning = true) :
    ¬ HasMetBound it.monitors result.2 := by
  cases h with
  | @violated op answer strategy monitors violation hop hanswer hviolation =>
    have hgoesOn : ({ it with strategy, monitors } : Iteration γ).isRunning = true := hrunning
    have hphase : ({ it with strategy, monitors }.reportBug .liveness violation.message).outcome? =
        some (.bugFound .liveness) := by
      rw [outcome?, phase_reportBug hgoesOn]
    rintro (hmet | hmet | ⟨-, hclean, monitor, name, hmet⟩)
    · cases hphase.symm.trans hmet
    · cases hphase.symm.trans hmet
    · rw [monitors_reportBug] at hmet
      have hfound : (it.strategy.answer op query it.monitors).2.2.violation =
          some (.hotAtBound monitor name) := by
        rw [hanswer]
        exact hmet
      obtain ⟨-, -, hkind⟩ := Strategy.answer_of_violation hclean hfound
      cases hkind
  | _ =>
    refine not_hasMetBound_of_isRunning ?_ _
    exact hrunning

/-- A call for a turn ends the iteration at its step bound only if the strategy is at its bound. -/
theorem atBound_of_scheduleNext (hrunning : it.isRunning = true)
    (hmet : HasMetBound it.monitors it.scheduleNext.2) : it.strategy.atBound = true := by
  have hscheduled := it.scheduled
  generalize it.scheduleNext = result at hscheduled hmet
  cases hscheduled with
  | ended hended => cases hended.symm.trans hrunning
  | empty => exact absurd hmet (not_hasMetBound_of_isRunning hrunning _)
  | completed =>
    have hwaiting : it.enableWaiting.isRunning = true := hrunning
    have houtcome : (it.enableWaiting.stop .completed).outcome? = some .completed := by
      rw [outcome?, phase_stop hwaiting]
    rw [HasMetBound, houtcome] at hmet
    simp at hmet
  | atBound hbound => exact hbound
  | consulted hbelow hanswer hresult =>
    have hopen := hanswer.not_hasMetBound hrunning
    exfalso
    cases hresult with
    | unanswered =>
      refine not_hasMetBound_endWithoutChoice ?_ _ hmet
      cases hanswer
      exact hrunning
    | _ => exact hopen hmet

/-- A call for a value ends the iteration at its step bound only if the strategy is at its bound. -/
theorem atBound_of_choose {query : Query} (hrunning : it.isRunning = true)
    (hmet : HasMetBound it.monitors (it.choose query).2) : it.strategy.atBound = true := by
  have hchosen := it.chosen query
  generalize it.choose query = result at hchosen hmet
  cases hchosen with
  | ended hended => cases hended.symm.trans hrunning
  | atBound hbound => exact hbound
  | failed _ _ hanswer => exact absurd hmet (hanswer.not_hasMetBound hrunning)
  | violated _ _ hanswer => exact absurd hmet (hanswer.not_hasMetBound hrunning)
  | unanswered _ _ hanswer => exact absurd hmet (hanswer.not_hasMetBound hrunning)
  | given _ _ hanswer => exact absurd hmet (hanswer.not_hasMetBound hrunning)

/-- A call that ends the iteration at its step bound finds the strategy at its bound, and records
nothing. -/
theorem EndsAtBound.atBound {call : Call} (h : it.EndsAtBound call) :
    it.strategy.atBound = true ∧ (it.perform call).2.isRunning = false := by
  have hended : (it.perform call).2.isRunning = false := by
    rw [Bool.eq_false_iff]
    intro hstill
    exact not_hasMetBound_of_isRunning hstill _ h.ending
  refine ⟨?_, hended⟩
  have hasks := h.asks
  have hending := h.ending
  cases call with
  | schedule => exact atBound_of_scheduleNext h.running hending
  | boolean => exact atBound_of_choose h.running hending
  | integer bound => exact atBound_of_choose h.running hending
  | _ => cases hasks

end Bound

end Iteration

end ScheduleExplorer
