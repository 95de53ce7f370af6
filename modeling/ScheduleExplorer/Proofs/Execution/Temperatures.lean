import ScheduleExplorer.Proofs.Execution.Asking
import ScheduleExplorer.Proofs.Execution.Driven
import ScheduleExplorer.Proofs.Strategy.Temperatures

/-!
# Iterations end where a hot span is too long

Calls of an iteration reach its strategy as requests, unless the iteration has ended or is at its
bound, or nothing is left to be scheduled. So a fair strategy that watches the monitors at the outside
measures the hot spans by the calls of the iteration, too. The call whose request is the first with
which some count exceeds the threshold gets no decision and ends the iteration with a liveness
violation. The strategy inside is not asked then or later; it is told of the bug.
-/

namespace ScheduleExplorer

open WatchEvent

variable {γ : Type} [RandomSource γ]

namespace Iteration

/-! ### The requests of an iteration -/

/-- The strategy of an iteration with its monitors. -/
def watch (it : Iteration γ) : Watch γ :=
  ⟨it.strategy, it.monitors⟩

/-- The request that a query of an iteration makes of its strategy, if the iteration goes on below its
bound. -/
def request? (query : Query) (it : Iteration γ) : Option WatchEvent :=
  if it.isRunning && !it.strategy.atBound then
    (it.operation? it.current).map fun op => .request op query
  else none

/-- The request that a call makes of the strategy. A call for a turn makes none where every operation
is completed. -/
def requestOf? (it : Iteration γ) : Call → Option WatchEvent
  | .schedule =>
    if it.enableWaiting.operations.all (·.status.isCompleted) then none
    else it.enableWaiting.request? (.operation it.enableWaiting.operations)
  | .boolean => it.request? (.boolean 2)
  | .integer bound => it.request? (.integer bound)
  | _ => none

/-- What a call is for the strategy and the monitors. -/
def watchEvent? (it : Iteration γ) : Call → Option WatchEvent
  | .setMonitor id isHot => some (.set id isHot)
  | call => it.requestOf? call

/-- What calls are for the strategy and the monitors. -/
def watched (it : Iteration γ) : List Call → List WatchEvent
  | [] => []
  | call :: rest => (it.watchEvent? call).toList ++ (it.perform call).2.watched rest

/-- An iteration has ended with a violation: no decision is recorded, and the strategy is only told of
the bug. -/
structure EndsWith (violation : LivenessViolation) (it after : Iteration γ) : Prop where
  outcome : after.outcome? = some (.bugFound .liveness)
  message : after.message = some violation.message
  violation : after.monitors.violation = some violation
  strategy : after.strategy = it.strategy.notifyBug
  trace : after.trace = it.trace

/-- The strategy of an iteration follows the history, and as long as the iteration goes on no violation
is recorded. -/
structure Measured (registry : Monitors) (events : List WatchEvent) (it : Iteration γ) : Prop where
  follows : it.watch.Follows registry events
  clean : it.isRunning = true → it.monitors.violation = none

/-- What a call makes of an iteration, given what it is for the strategy and the monitors. Without a
request at most a hot monitor at the bound is found. With a request that makes some count exceed the
threshold the iteration ends, and with any other no violation is found. -/
inductive Noted (registry : Monitors) (events : List WatchEvent) (it : Iteration γ) :
    Option WatchEvent → CallReply × Iteration γ → Prop where
  | silent {event : Option WatchEvent} {result : CallReply × Iteration γ}
      (hmeasured : result.2.Measured registry (events ++ event.toList))
      (hother : event.any WatchEvent.isRequest = false)
      (hviolation : result.2.monitors.violation = it.monitors.violation ∨
        ∃ violation, result.2.monitors.violation = some violation ∧ violation.isAtBound = true) :
      Noted registry events it event result
  | below {request : WatchEvent} {result : CallReply × Iteration γ}
      (hmeasured : result.2.Measured registry (events ++ [request]))
      (hclean : result.2.monitors.violation = none)
      (hgoesOn : result.2.outcome? ≠ some (.bugFound .liveness)) :
      Noted registry events it (some request) result
  | above {request : WatchEvent} {after : Iteration γ} {id : MonitorId} {name : String}
      (hmeasured : after.Measured registry (events ++ [request]))
      (hfirst : registry.IsFirstAbove (events ++ [request]) id name)
      (hends : EndsWith (.temperatureExceeded id name (registry.threshold + 1) registry.threshold)
        it after) :
      Noted registry events it (some request) (some (.ok none), after)

section Calls

variable {registry : Monitors} {events : List WatchEvent} {it after : Iteration γ}

omit [RandomSource γ] in
/-- In each case the monitors go on to agree with the history. -/
theorem Noted.measured {event : Option WatchEvent} {result : CallReply × Iteration γ}
    (h : Noted registry events it event result) :
    result.2.Measured registry (events ++ event.toList) := by
  cases h with
  | silent hmeasured => exact hmeasured
  | below hmeasured => exact hmeasured
  | above hmeasured => exact hmeasured

omit [RandomSource γ] in
/-- A call that is nothing for the strategy and the monitors, unless a hot monitor is found at the
bound. -/
theorem noted_none {result : CallReply × Iteration γ} (hmeasured : result.2.Measured registry events)
    (hviolation : result.2.monitors.violation = it.monitors.violation ∨
      ∃ violation, result.2.monitors.violation = some violation ∧ violation.isAtBound = true) :
    Noted registry events it none result := by
  refine .silent ?_ rfl hviolation
  rwa [Option.toList_none, List.append_nil]

omit [RandomSource γ] in
/-- What changes neither the monitors nor the kind of the strategy, and does not set the iteration
going again. -/
theorem Measured.of_sameKind (h : it.Measured registry events)
    (hkind : after.strategy.SameKind it.strategy) (hmonitors : after.monitors = it.monitors)
    (hrunning : after.isRunning = true → it.isRunning = true) : after.Measured registry events := by
  have hfollows := h.follows.of_sameKind hkind
  constructor
  · rw [watch, hmonitors]
    exact hfollows
  · rw [hmonitors]
    exact h.clean ∘ hrunning

omit [RandomSource γ] in
/-- Reporting a violation that is recorded ends a running iteration with it. -/
theorem endsWith_reportBug (hrunning : it.isRunning = true) {monitors : Monitors}
    {violation : LivenessViolation} (hviolation : monitors.violation = some violation) :
    EndsWith violation it ({ it with monitors }.reportBug .liveness violation.message) := by
  have hgoesOn : ({ it with monitors } : Iteration γ).isRunning = true := hrunning
  rw [reportBug, if_pos hgoesOn]
  exact ⟨rfl, rfl, hviolation, rfl, rfl⟩

/-- Where the running operation is unknown, a consultation fails. -/
theorem Consulted.of_unknown {query : Query}
    {result : Except Fault (Option (Option query.Answer)) × Iteration γ}
    (h : Consulted query it result) (hop : it.operation? it.current = none) :
    result = (.error (.unknownOperation it.current), it) := by
  cases h with
  | unknown => rfl
  | violated hother => cases hop.symm.trans hother
  | failed hother => cases hop.symm.trans hother
  | answered hother => cases hop.symm.trans hother

/-- A consultation is a request of the strategy. -/
theorem Measured.consulted (h : it.Measured registry events) (hrunning : it.isRunning = true)
    {query : Query} {op : Operation} (hop : it.operation? it.current = some op)
    {result : Except Fault (Option (Option query.Answer)) × Iteration γ}
    (hresult : Consulted query it result) :
    result.2.Measured registry (events ++ [.request op query]) ∧
      ((result.2.monitors.violation = none ∧ result.2.phase = it.phase) ∨
        ∃ id name, registry.IsFirstAbove (events ++ [.request op query]) id name ∧
          result.1 = .ok none ∧
          EndsWith (.temperatureExceeded id name (registry.threshold + 1) registry.threshold)
            it result.2) := by
  have hfollows := h.follows.step (.request op query)
  have hrequest := h.follows.request (h.clean hrunning) op query
  have hstep {answer : Option query.Answer} {strategy : Strategy γ} {monitors : Monitors}
      {other : Operation} (hother : it.operation? it.current = some other)
      (hanswer : it.strategy.answer other query it.monitors = (answer, strategy, monitors)) :
      it.watch.step (.request op query) = ⟨strategy, monitors⟩ := by
    obtain rfl := Option.some.inj (hop.symm.trans hother)
    simp only [Watch.step, Watch.answer, watch, hanswer]
  have hgoesOn {strategy taken : Strategy γ} {fault : Option Fault} {monitors : Monitors}
      (hleft : it.watch.step (.request op query) = ⟨strategy, monitors⟩)
      (hviolation : monitors.violation = none) (hfault : strategy.takeFault = (fault, taken)) :
      Measured registry (events ++ [.request op query]) { it with strategy := taken, monitors } := by
    rw [hleft] at hfollows
    have hkind := strategy.keeps_takeFault.sameKind
    rw [hfault] at hkind
    exact ⟨hfollows.of_sameKind hkind, fun _ => hviolation⟩
  cases hresult with
  | unknown hnone => cases hop.symm.trans hnone
  | violated hother hanswer hviolation =>
    rw [hstep hother hanswer] at hfollows hrequest
    rcases hrequest with ⟨hclean, -⟩ | ⟨id, name, hfirst, hfound, -, hsame⟩
    · cases hclean.symm.trans hviolation
    · obtain rfl := Option.some.inj (hviolation.symm.trans hfound)
      obtain rfl := hsame
      have hends := endsWith_reportBug hrunning hviolation
      refine ⟨⟨?_, fun hstill => ?_⟩, .inr ⟨id, name, hfirst, rfl, hends⟩⟩
      · have htold := hfollows.of_sameKind it.strategy.keeps_notifyBug.sameKind
        rw [← hends.strategy] at htold
        rw [watch, monitors_reportBug]
        exact htold
      · cases (isRunning_reportBug _ _ _).symm.trans hstill
  | failed hother hanswer hviolation hfault =>
    exact ⟨hgoesOn (hstep hother hanswer) hviolation hfault, .inl ⟨hviolation, rfl⟩⟩
  | answered hother hanswer hviolation hfault =>
    exact ⟨hgoesOn (hstep hother hanswer) hviolation hfault, .inl ⟨hviolation, rfl⟩⟩

omit [RandomSource γ] in
/-- The check at the bound finds at most a hot monitor. -/
theorem Measured.endAtBound (h : it.Measured registry events) (hrunning : it.isRunning = true) :
    it.endAtBound.Measured registry events ∧
      (it.endAtBound.monitors.violation = it.monitors.violation ∨
        ∃ violation, it.endAtBound.monitors.violation = some violation ∧
          violation.isAtBound = true) := by
  have hkind := (sameTable_endAtBound it).strategy.sameKind
  have hended := isRunning_endAtBound it
  have hfair : it.strategy.isFair = true := h.follows.fair
  have hmonitors := monitors_endAtBound it
  rw [monitorsAtBound, if_pos hfair] at hmonitors
  cases hviolation : it.monitors.checkAtBound.violation with
  | none =>
    have hsame : it.monitors.checkAtBound = it.monitors := by
      rw [Monitors.checkAtBound, h.clean hrunning] at hviolation ⊢
      dsimp only at hviolation ⊢
      rw [hviolation, ← h.clean hrunning]
    rw [hsame] at hmonitors
    refine ⟨h.of_sameKind hkind hmonitors fun hstill => ?_, .inl (congrArg _ hmonitors)⟩
    cases hended.symm.trans hstill
  | some violation =>
    refine ⟨⟨⟨?_, ?_, ?_, ?_⟩, fun hstill => ?_⟩, .inr ⟨violation, ?_, ?_⟩⟩
    · exact hkind.isDecorated.trans h.follows.decorated
    · exact hkind.isFair.trans h.follows.fair
    · rw [watch, hmonitors]
      exact (Monitors.sameAtRest_checkAtBound it.monitors).trans h.follows.atRest
    · intro hclean
      rw [watch, hmonitors, hviolation] at hclean
      cases hclean
    · cases hended.symm.trans hstill
    · rw [hmonitors, hviolation]
    · exact Monitors.isAtBound_checkAtBound (h.clean hrunning) hviolation

omit [RandomSource γ] in
/-- Below the bound a query makes a request if the running operation is known. -/
theorem request?_eq (hrunning : it.isRunning = true) (hbelow : it.strategy.atBound = false)
    (query : Query) :
    it.request? query = (it.operation? it.current).map fun op => .request op query := by
  simp [request?, hrunning, hbelow]

omit [RandomSource γ] in
/-- Concluding after an answer leaves the monitors alone and finds no violation. -/
theorem Measured.concluded {ops : List Operation} {answer : Except Fault (Option (Option
      (Query.operation ops).Answer)) × Iteration γ}
    {result : Except Fault (Option OperationId) × Iteration γ} (hresult : Concluded ops answer result)
    (h : answer.2.Measured registry events) (hrunning : answer.2.isRunning = true) :
    result.2.Measured registry events ∧ result.2.monitors = answer.2.monitors ∧
      result.2.outcome? ≠ some (.bugFound .liveness) := by
  have hgoesOn {it : Iteration γ} (hrunning : it.isRunning = true) :
      it.outcome? ≠ some (.bugFound .liveness) := by
    simp [outcome?_of_isRunning hrunning]
  cases hresult with
  | @unanswered after =>
    refine ⟨?_, monitors_endWithoutChoice after, ?_⟩
    · exact h.of_sameKind (sameTable_endWithoutChoice after).strategy.sameKind
        (monitors_endWithoutChoice after) fun _ => hrunning
    · rcases outcome?_endWithoutChoice hrunning with houtcome | houtcome <;> simp [houtcome]
  | @scheduled next op after =>
    have hrunning : (after.schedule next).isRunning = true := hrunning
    exact ⟨⟨h.follows, h.clean⟩, rfl, hgoesOn hrunning⟩
  | _ => exact ⟨h, rfl, hgoesOn hrunning⟩

/-- What a call for a turn makes of an iteration. -/
theorem Measured.scheduleNext (h : it.Measured registry events) :
    Noted registry events it (it.requestOf? .schedule) (reply .operation it.scheduleNext) := by
  have hscheduled := it.scheduled
  generalize it.scheduleNext = result at hscheduled
  have hwaiting : it.enableWaiting.Measured registry events := ⟨h.follows, h.clean⟩
  cases hscheduled with
  | ended hended =>
    have hnone : it.requestOf? .schedule = none := by
      have hstill : it.enableWaiting.isRunning = false := hended
      simp [requestOf?, request?, hstill]
    rw [hnone]
    exact noted_none h (.inl rfl)
  | empty hempty =>
    have hnone : it.requestOf? .schedule = none := by
      simp [requestOf?, enableWaiting, hempty]
    rw [hnone]
    exact noted_none h (.inl rfl)
  | completed hcompleted hopen =>
    rw [requestOf?, if_pos hcompleted]
    refine noted_none ?_ (.inl ?_)
    · refine hwaiting.of_sameKind (sameTable_stop _ _).strategy.sameKind (monitors_stop _ _) fun _ => ?_
      exact hopen.1
    · exact congrArg _ (monitors_stop _ _)
  | atBound hbound hopen hleft =>
    have hnone : it.requestOf? .schedule = none := by
      have hbound : it.enableWaiting.strategy.atBound = true := hbound
      simp [requestOf?, request?, hbound]
    rw [hnone]
    obtain ⟨hmeasured, hviolation⟩ := hwaiting.endAtBound hopen.1
    exact noted_none hmeasured hviolation
  | @consulted hbelow answer result hanswer hresult hopen hleft =>
    have hrunning : it.enableWaiting.isRunning = true := hopen.1
    rw [requestOf?, if_neg (Bool.eq_false_iff.mp hleft), request?_eq hrunning hbelow]
    cases hop : it.enableWaiting.operation? it.enableWaiting.current with
    | none =>
      obtain rfl := hanswer.of_unknown hop
      cases hresult
      exact noted_none hwaiting (.inl rfl)
    | some op =>
      rw [Option.map_some]
      obtain ⟨hmeasured, hfound⟩ := hwaiting.consulted hrunning hop hanswer
      rcases hfound with ⟨hclean, hphase⟩ | ⟨id, name, hfirst, hsilent, hends⟩
      · have hstill : answer.2.isRunning = true := by rwa [isRunning, hphase, ← isRunning]
        obtain ⟨hafter, hmonitors, hgoesOn⟩ := hmeasured.concluded hresult hstill
        exact .below hafter ((congrArg _ hmonitors).trans hclean) hgoesOn
      · obtain ⟨reply, after⟩ := answer
        obtain rfl : reply = .ok none := hsilent
        cases hresult
        exact .above hmeasured hfirst ⟨hends.outcome, hends.message, hends.violation, hends.strategy,
          hends.trace⟩

/-- What a call for a value makes of an iteration. -/
theorem Measured.choose (h : it.Measured registry events) (query : Query)
    (decision : query.Answer → Decision) :
    Noted registry events it (it.request? query) (reply decision (it.choose query)) := by
  have hchosen := it.chosen query
  generalize it.choose query = result at hchosen
  have hconsulted (hrunning : it.isRunning = true) (hbelow : it.strategy.atBound = false)
      {answer : Except Fault (Option (Option query.Answer)) × Iteration γ} {after : Iteration γ}
      {answered : Except Fault (Option query.Answer)} (hanswer : Consulted query it answer)
      (hmeasured : ∀ events, answer.2.Measured registry events → after.Measured registry events)
      (hmonitors : after.monitors = answer.2.monitors) (hphase : after.phase = answer.2.phase)
      (hviolated : answer.1 = .ok none → answer.2 = after ∧ answered = .ok none) :
      Noted registry events it (it.request? query) (reply decision (answered, after)) := by
    rw [request?_eq hrunning hbelow]
    cases hop : it.operation? it.current with
    | none =>
      obtain rfl := hanswer.of_unknown hop
      exact noted_none (hmeasured events h) (.inl (congrArg _ hmonitors))
    | some op =>
      rw [Option.map_some]
      obtain ⟨hmeasures, ⟨hclean, hstill⟩ | ⟨id, name, hfirst, hsilent, hends⟩⟩ :=
        h.consulted hrunning hop hanswer
      · refine .below (hmeasured _ hmeasures) ((congrArg _ hmonitors).trans hclean) ?_
        have hgoesOn : after.isRunning = true := by
          rwa [isRunning, hphase, hstill, ← isRunning]
        simp [reply, outcome?_of_isRunning hgoesOn]
      · obtain ⟨rfl, rfl⟩ := hviolated hsilent
        exact .above hmeasures hfirst hends
  cases hchosen with
  | ended hended =>
    have hnone : it.request? query = none := by simp [request?, hended]
    rw [hnone]
    exact noted_none h (.inl rfl)
  | atBound hbound hrunning =>
    have hnone : it.request? query = none := by simp [request?, hbound]
    rw [hnone]
    obtain ⟨hmeasured, hviolation⟩ := h.endAtBound hrunning
    exact noted_none hmeasured hviolation
  | failed hbelow hrunning hanswer =>
    exact hconsulted hrunning hbelow hanswer (fun _ => id) rfl rfl fun hsilent => by cases hsilent
  | violated hbelow hrunning hanswer =>
    exact hconsulted hrunning hbelow hanswer (fun _ => id) rfl rfl fun _ => ⟨rfl, rfl⟩
  | unanswered hbelow hrunning hanswer =>
    exact hconsulted hrunning hbelow hanswer (fun _ => id) rfl rfl fun hsilent => by cases hsilent
  | given hbelow hrunning hanswer =>
    exact hconsulted hrunning hbelow hanswer (fun _ hafter => ⟨hafter.follows, hafter.clean⟩) rfl rfl
      fun hsilent => by cases hsilent

/-- What any call makes of an iteration. -/
theorem Measured.perform (h : it.Measured registry events) (call : Call) :
    Noted registry events it (it.watchEvent? call) (it.perform call) := by
  cases call with
  | schedule => exact h.scheduleNext
  | boolean => exact h.choose (.boolean 2) .boolean
  | integer bound => exact h.choose (.integer bound) .integer
  | reportBug kind message =>
    have hmonitors := monitors_reportBug kind message it
    refine noted_none ?_ (.inl (congrArg _ hmonitors))
    refine h.of_sameKind (sameTable_reportBug kind message it).strategy.sameKind hmonitors ?_
    intro hstill
    cases (isRunning_reportBug kind message it).symm.trans hstill
  | stop outcome =>
    have hmonitors := monitors_stop outcome it
    refine noted_none ?_ (.inl (congrArg _ hmonitors))
    refine h.of_sameKind (sameTable_stop outcome it).strategy.sameKind hmonitors ?_
    intro hstill
    cases (isRunning_stop outcome it).symm.trans hstill
  | setMonitor id isHot =>
    exact .silent ⟨h.follows.step (.set id isHot), h.clean⟩ rfl (.inl rfl)
  | _ => exact noted_none ⟨h.follows, h.clean⟩ (.inl rfl)

end Calls

section History

variable {registry : Monitors} {start : Iteration γ}

/-- The history of some calls and one more. -/
theorem watched_concat (it : Iteration γ) (calls : List Call) (call : Call) :
    it.watched (calls ++ [call]) =
      it.watched calls ++ ((it.after calls).watchEvent? call).toList := by
  induction calls generalizing it with
  | nil => simp [watched, after]
  | cons first rest ih =>
    simp only [List.cons_append, watched, ih, List.append_assoc]
    rfl

/-- However many calls there are, the monitors agree with the history. -/
theorem Measured.after (h : start.Measured registry []) (calls : List Call) :
    (start.after calls).Measured registry (start.watched calls) := by
  induction calls using List.reverseRecOn with
  | nil => exact h
  | append_singleton calls call ih =>
    rw [after_append, watched_concat]
    exact (ih.perform call).measured

omit [RandomSource γ] in
/-- A request of a call is what the call is for the strategy and the monitors. -/
theorem watchEvent?_of_requestOf? {it : Iteration γ} {call : Call} {request : WatchEvent}
    (h : it.requestOf? call = some request) : it.watchEvent? call = some request := by
  cases call with
  | setMonitor => cases h
  | _ => exact h

omit [RandomSource γ] in
/-- Every request of a call is a request. -/
theorem isRequest_of_requestOf? {it : Iteration γ} {call : Call} {request : WatchEvent}
    (h : it.requestOf? call = some request) : request.isRequest = true := by
  have hrequest {query : Query} {it : Iteration γ} (h : it.request? query = some request) :
      request.isRequest = true := by
    rw [request?] at h
    split at h
    · obtain ⟨op, -, rfl⟩ := Option.map_eq_some_iff.mp h
      rfl
    · cases h
  cases call with
  | schedule =>
    rw [requestOf?] at h
    split at h
    · cases h
    · exact hrequest h
  | boolean => exact hrequest h
  | integer bound => exact hrequest h
  | _ => cases h

/-- An iteration ends at the request with which a hot span becomes too long. -/
structure EndsAtExcess (registry : Monitors) (start : Iteration γ) : Prop where
  /-- As long as no violation is recorded, a monitor is hot in its hot span, and its temperature is the
  number of decisions requested there. -/
  temperature : ∀ calls, (start.after calls).monitors.violation = none →
    ∀ id monitor, (start.after calls).monitors.get? id = some monitor →
      monitor.Agrees (start.watched calls) id
  /-- An iteration that goes on has no violation. -/
  unviolated : ∀ calls, (start.after calls).isRunning = true →
    (start.after calls).monitors.violation = none
  /-- A request with which no count exceeds the threshold finds no violation. -/
  goesOn : ∀ calls call request, (start.after calls).requestOf? call = some request →
    (∀ id, registry.isKnown id = true →
      requestsWhileHot id (start.watched calls ++ [request]) ≤ registry.threshold) →
    ((start.after calls).perform call).2.monitors.violation = none ∧
      ((start.after calls).perform call).2.outcome? ≠ some (.bugFound .liveness)
  /-- A request with which some count exceeds the threshold gets no decision and ends the iteration with
  a violation of the first such monitor, at one above the threshold. -/
  ends : ∀ calls call request id name, (start.after calls).requestOf? call = some request →
    registry.IsFirstAbove (start.watched calls ++ [request]) id name →
    ((start.after calls).perform call).1 = some (.ok none) ∧
      EndsWith (.temperatureExceeded id name (registry.threshold + 1) registry.threshold)
        (start.after calls) ((start.after calls).perform call).2
  /-- After that no call gets a decision, and the strategy is not touched again. -/
  later : ∀ calls call request id name, (start.after calls).requestOf? call = some request →
    registry.IsFirstAbove (start.watched calls ++ [request]) id name →
    ∀ more next, ((start.after (calls ++ call :: more)).perform next).1.decision? = none ∧
      (start.after (calls ++ call :: more)).strategy = (start.after calls).strategy.notifyBug
  /-- Where no request is made, no temperature is found to be too high. -/
  elsewhere : ∀ calls call violation, (start.after calls).requestOf? call = none →
    ((start.after calls).perform call).2.monitors.violation = some violation →
    (start.after calls).monitors.violation = some violation ∨ violation.isAtBound = true

/-- A request either makes no count exceed the threshold or ends the iteration. -/
theorem Measured.request {it : Iteration γ} {events : List WatchEvent} (h : it.Measured registry events)
    {call : Call} {request : WatchEvent} (hrequest : it.requestOf? call = some request) :
    ((∀ id, registry.isKnown id = true →
          requestsWhileHot id (events ++ [request]) ≤ registry.threshold) ∧
        (it.perform call).2.monitors.violation = none ∧
        (it.perform call).2.outcome? ≠ some (.bugFound .liveness)) ∨
      ∃ id name, registry.IsFirstAbove (events ++ [request]) id name ∧
        (it.perform call).1 = some (.ok none) ∧
        EndsWith (.temperatureExceeded id name (registry.threshold + 1) registry.threshold) it
          (it.perform call).2 := by
  have hnoted := h.perform call
  rw [watchEvent?_of_requestOf? hrequest] at hnoted
  generalize it.perform call = result at hnoted
  cases hnoted with
  | silent _ hother =>
    rw [Option.any_some, isRequest_of_requestOf? hrequest] at hother
    cases hother
  | below hmeasured hclean hgoesOn =>
    refine .inl ⟨?_, hclean, hgoesOn⟩
    intro id hknown
    have hrest := hmeasured.follows.atRest
    have hbelow := (hmeasured.follows.tracks hclean).below id
    rw [hrest.isKnown_eq, hrest.threshold] at hbelow
    exact hbelow hknown
  | above _ hfirst hends => exact .inr ⟨_, _, hfirst, rfl, hends⟩

/-- An iteration that begins with a reset of the monitors, under a fair strategy that watches them at the
outside. -/
theorem measured_of_reset (hdecorated : start.strategy.isDecorated = true)
    (hfair : start.strategy.isFair = true) {before : Monitors} (hrest : before.SameAtRest registry)
    (hreset : start.monitors = before.resetForIteration) : start.Measured registry [] := by
  refine ⟨Watch.follows_after hdecorated hfair hrest hreset [], fun _ => ?_⟩
  rw [hreset, Monitors.resetForIteration]

/-- Such an iteration ends where a hot span is too long. -/
theorem Measured.endsAtExcess (hstart : start.Measured registry []) : start.EndsAtExcess registry := by
  have hexcess {calls : List Call} {call : Call} {request : WatchEvent} {id : MonitorId} {name : String}
      (hrequest : (start.after calls).requestOf? call = some request)
      (hfirst : registry.IsFirstAbove (start.watched calls ++ [request]) id name) :
      ((start.after calls).perform call).1 = some (.ok none) ∧
        EndsWith (.temperatureExceeded id name (registry.threshold + 1) registry.threshold)
          (start.after calls) ((start.after calls).perform call).2 := by
    rcases (hstart.after calls).request hrequest with
      ⟨hbelow, -⟩ | ⟨other, otherName, hother, hreply, hends⟩
    · exact absurd (hbelow id hfirst.isKnown) (Nat.not_le.mpr hfirst.above)
    · obtain ⟨rfl, rfl⟩ := hother.unique hfirst
      exact ⟨hreply, hends⟩
  constructor
  case temperature =>
    intro calls hclean
    exact ((hstart.after calls).follows.tracks hclean).agrees
  case unviolated => exact fun calls => (hstart.after calls).clean
  case goesOn =>
    intro calls call request hrequest hbelow
    rcases (hstart.after calls).request hrequest with ⟨-, hgoesOn⟩ | ⟨id, name, hfirst, -⟩
    · exact hgoesOn
    · exact absurd (hbelow id hfirst.isKnown) (Nat.not_le.mpr hfirst.above)
  case ends => exact fun calls call request id name => hexcess
  case later =>
    intro calls call request id name hrequest hfirst more next
    obtain ⟨-, hends⟩ := hexcess hrequest hfirst
    have hended : ((start.after calls).perform call).2.isRunning = false := by
      by_contra hstill
      cases (outcome?_of_isRunning (Bool.not_eq_false _ ▸ hstill)).symm.trans hends.outcome
    obtain ⟨hstill, hstrategy, -⟩ := after_of_ended hended more
    rw [after_append]
    exact ⟨(perform_of_ended hstill next).1, hstrategy.trans hends.strategy⟩
  case elsewhere =>
    intro calls call violation hnone hviolation
    have hnoted := (hstart.after calls).perform call
    cases hevent : (start.after calls).watchEvent? call with
    | none =>
      rw [hevent] at hnoted
      generalize (start.after calls).perform call = result at hnoted hviolation
      cases hnoted with
      | silent _ _ hfound =>
        rcases hfound with hsame | ⟨found, hfound, hbound⟩
        · exact .inl (hsame.symm.trans hviolation)
        · obtain rfl := Option.some.inj (hfound.symm.trans hviolation)
          exact .inr hbound
    | some event =>
      cases call with
      | setMonitor => exact .inl hviolation
      | _ => cases hnone.symm.trans hevent

/-- The temperatures of monitors are the lengths of their hot spans, for the strategy that watches them
and for the iteration that it schedules. -/
structure MeasuresTemperatures (registry : Monitors) (start : Iteration γ) : Prop where
  strategy : start.watch.MeasuresSpans registry
  iteration : start.EndsAtExcess registry
  /-- The next iteration begins with what this one has left of the strategy and of the monitors. -/
  next : ∀ calls coverage depthBoundIsBug, EndsAtExcess registry
    { strategy := (start.after calls).strategy.prepare.2
      monitors := (start.after calls).monitors.resetForIteration
      coverage, depthBoundIsBug }

/-- Under a fair strategy that watches the monitors at the outside, the temperatures are the lengths of
the hot spans until one of them exceeds the threshold. The request with which it does so finds the
violation, and the iteration ends with it. -/
theorem measuresTemperatures_of_fair (hdecorated : start.strategy.isDecorated = true)
    (hfair : start.strategy.isFair = true) (hreset : start.monitors = registry.resetForIteration) :
    start.MeasuresTemperatures registry := by
  have hstart := measured_of_reset hdecorated hfair (.refl registry) hreset
  refine ⟨Watch.measuresSpans hdecorated hfair hreset, hstart.endsAtExcess, ?_⟩
  intro calls coverage depthBoundIsBug
  have hleft := (hstart.after calls).follows
  have hkind := (start.after calls).strategy.sameKind_prepare
  apply Measured.endsAtExcess
  exact measured_of_reset (hkind.isDecorated.trans hleft.decorated) (hkind.isFair.trans hleft.fair)
    hleft.atRest rfl

/-- A random walk that watches two monitors, of which each may stay hot for one decision. -/
def watchedWalk : Iteration Tape where
  strategy := .liveness (.random { source := { words := #[5, 2] }, baseSeed := 0, maxSteps := 0 })
  monitors := (Monitors.ofNames 1 ["first", "second"]).resetForIteration

/-- A value is drawn, and then the second monitor is hot for two more, one of them after it has become
hot again. -/
def hotForTwo : List Call :=
  [.register "a", .change ⟨0⟩ .create, .boolean, .setMonitor ⟨1⟩ true, .boolean, .setMonitor ⟨1⟩ true,
    .integer 3]

/-- The first monitor stays cold. The second one is hot for two requests, which is one more than it may
be, so the iteration ends with its violation. -/
theorem measuresTemperatures_of_fair_hotForTwo :
    watchedWalk.strategy.isDecorated = true ∧ watchedWalk.strategy.isFair = true ∧
      watchedWalk.monitors = (Monitors.ofNames 1 ["first", "second"]).resetForIteration ∧
      watchedWalk.MeasuresTemperatures (Monitors.ofNames 1 ["first", "second"]) ∧
      requestsWhileHot ⟨1⟩ (watchedWalk.watched hotForTwo) = 2 ∧
      (watchedWalk.after hotForTwo).outcome? = some (.bugFound .liveness) ∧
      (watchedWalk.after hotForTwo).monitors.violation =
        some (.temperatureExceeded ⟨1⟩ "second" 2 1) :=
  ⟨rfl, rfl, rfl, measuresTemperatures_of_fair rfl rfl rfl, rfl, rfl, rfl⟩

end History

end Iteration

end ScheduleExplorer
