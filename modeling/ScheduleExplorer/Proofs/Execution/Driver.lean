import ScheduleExplorer.Proofs.Execution.Runs
import ScheduleExplorer.Proofs.Random.Lawful
import ScheduleExplorer.Proofs.Strategy.Compositions
import ScheduleExplorer.Proofs.Strategy.Faults

/-!
# The trace is what happened

A program drives an iteration by calls: it registers and changes operations, records states, asks for
turns and values, reports bugs and stops the iteration, in whatever order. The answers that it gets are
the trace, and the strategy has counted them.

An answer of the strategy could be lost between the strategy and the trace: to a violation, to a fault,
or to an operation that is not enabled. `Iteration.Accounts` is the invariant that excludes this. The
strategy owes the trace at most one answer, and only in the middle of a call.
-/

namespace ScheduleExplorer

variable {γ : Type}

/-- The strategies that may drive a first iteration: composed ones, and what combinations and
decorators make of them. -/
inductive Strategy.Fresh [RandomSource γ] : Strategy γ → Prop where
  | composed {s : Strategy γ} (h : s.Composed) (hfault : s.IsFaultless) : Fresh s
  | combo {lead rest : Strategy γ} (hlead : Fresh lead) (hrest : Fresh rest) :
      Fresh (.combo lead rest)
  | liveness {inner : Strategy γ} (h : Fresh inner) : Fresh (.liveness inner)

/-- A fresh strategy is well-formed, has taken no step and has no fault pending. -/
theorem Strategy.Fresh.atStart [RandomSource γ] [LawfulRandomSource γ] {s : Strategy γ} (h : s.Fresh) :
    s.WellFormed ∧ s.steps = 0 ∧ s.IsFaultless := by
  induction h with
  | composed h hfault =>
    obtain ⟨hwellFormed, hsteps, -⟩ := h.atStart
    exact ⟨hwellFormed, hsteps, hfault⟩
  | combo _ _ ihLead ihRest =>
    obtain ⟨hlead, hleadSteps, hleadFault⟩ := ihLead
    obtain ⟨hrest, hrestSteps, hrestFault⟩ := ihRest
    refine ⟨⟨hlead, hrest, fun _ => hrestSteps⟩, ?_, isFaultless_combo.mpr ⟨hleadFault, hrestFault⟩⟩
    rw [steps, hleadSteps, hrestSteps, ite_self]
  | liveness _ ih => exact ih

/-! ### Calls -/

/-- A call of the program to its iteration. Creating an operation is one of the transitions. -/
inductive Call where
  | register (name : String)
  | change (id : OperationId) (transition : Transition)
  | recordState (hashes : StateHashes)
  | schedule
  | boolean
  | integer (bound : Nat)
  | reportBug (kind : BugKind) (message : String)
  | stop (outcome : Outcome)
  | setMonitor (id : MonitorId) (isHot : Bool)

/-- The reply to a call: only a call for a turn or for a value has one. -/
abbrev CallReply := Option (Except Fault (Option Decision))

/-- The decision that is given out in a reply. -/
def CallReply.decision? : CallReply → Option Decision
  | some (.ok answer) => answer
  | _ => none

namespace Iteration

section Calls

variable [RandomSource γ]

/-- The reply that an answer amounts to. -/
def reply {α : Type} (decision : α → Decision) (answered : Except Fault (Option α) × Iteration γ) :
    CallReply × Iteration γ :=
  (some (answered.1.map (Option.map decision)), answered.2)

/-- Carries out a call. -/
def perform (it : Iteration γ) : Call → CallReply × Iteration γ
  | .register name => (none, (it.register name).2)
  | .change id transition => (none, it.update id (·.apply transition))
  | .recordState hashes => (none, it.recordState hashes)
  | .schedule => reply .operation it.scheduleNext
  | .boolean => reply .boolean (it.choose (.boolean 2))
  | .integer bound => reply .integer (it.choose (.integer bound))
  | .reportBug kind message => (none, it.reportBug kind message)
  | .stop outcome => (none, it.stop outcome)
  | .setMonitor id isHot => (none, { it with monitors := it.monitors.set id isHot })

/-- The replies to calls, each with the iteration after the call. -/
def history (it : Iteration γ) : List Call → List (CallReply × Iteration γ)
  | [] => []
  | call :: rest => it.perform call :: (it.perform call).2.history rest

/-- The iteration after calls. -/
def after (it : Iteration γ) (calls : List Call) : Iteration γ :=
  calls.foldl (fun it call => (it.perform call).2) it

end Calls

/-- What is left behind stays as it is. -/
structure SameOutcome (it later : Iteration γ) : Prop where
  trace : later.trace = it.trace
  outcome : later.outcome? = it.outcome?
  message : later.message = it.message
  steps : later.strategy.steps = it.strategy.steps
  operationSteps : later.operationSteps = it.operationSteps

/-- The trace of an iteration after calls is what happened. -/
structure TellsCalls [RandomSource γ] (start : Iteration γ) (calls : List Call) : Prop where
  /-- The trace holds the answers, in the order of the calls. -/
  trace : (start.after calls).trace.toList =
    (start.history calls).filterMap fun entry => entry.1.decision?
  steps : (start.after calls).trace.size = (start.after calls).strategy.steps
  operationSteps : (start.after calls).operationSteps = (start.after calls).trace.operations.length
  /-- An operation whose turn it becomes is enabled in the table from which it was chosen. -/
  enabled : ∀ entry ∈ start.history calls, ∀ id, entry.1.decision? = some (.operation id) →
    ∃ op, entry.2.operation? id = some op ∧ op.isEnabled = true
  /-- After the first ending nothing is answered and the record stays as it is. -/
  ended : ∀ before later, calls = before ++ later → (start.after before).outcome?.isSome = true →
    (start.after before).SameOutcome (start.after calls) ∧
      ∀ entry ∈ (start.after before).history later, entry.1 = none ∨ entry.1 = some (.ok none)

/-! ### Accounts -/

/-- The trace of an iteration holds the answers; the strategy has counted them, and as many more as it
owes. -/
structure Accounts (answers : List Decision) (owed : Nat) (it : Iteration γ) : Prop where
  numbered : it.IsNumbered
  wellFormed : it.strategy.WellFormed
  trace : it.trace.toList = answers
  steps : it.strategy.steps = answers.length + owed
  operationSteps : it.operationSteps = (answers.filterMap Decision.operation?).length

/-- While an iteration goes on, no violation is recorded and no fault is pending. -/
structure IsClean (it : Iteration γ) : Prop where
  unviolated : it.isRunning = true → it.monitors.violation = none
  faultless : it.isRunning = true → it.strategy.IsFaultless

/-- An iteration that has ended is clean. -/
theorem isClean_of_ended {it : Iteration γ} (h : it.isRunning = false) : it.IsClean := by
  constructor <;> intro hrunning <;> cases h.symm.trans hrunning

section Endings

variable (it : Iteration γ)

/-- Stopping counts no turn. -/
theorem operationSteps_stop (outcome : Outcome) :
    (it.stop outcome).operationSteps = it.operationSteps := by
  rw [stop]
  split <;> rfl

/-- Reporting a bug counts no turn. -/
theorem operationSteps_reportBug (kind : BugKind) (message : String) :
    (it.reportBug kind message).operationSteps = it.operationSteps := by
  rw [reportBug]
  split <;> rfl

/-- Reaching the bound counts no turn. -/
theorem operationSteps_endAtBound : it.endAtBound.operationSteps = it.operationSteps := by
  rw [endAtBound_eq]
  unfold closeAtBound
  split
  · exact operationSteps_reportBug _ _ _
  · split
    · exact operationSteps_reportBug _ _ _
    · exact operationSteps_stop _ _

/-- Ending without a choice counts no turn. -/
theorem operationSteps_endWithoutChoice : it.endWithoutChoice.operationSteps = it.operationSteps := by
  rw [endWithoutChoice]
  split
  · exact operationSteps_reportBug _ _ _
  · exact operationSteps_stop _ _

end Endings

namespace Accounts

variable {answers : List Decision} {owed : Nat} {it after : Iteration γ}

/-- An ending keeps the accounts. -/
theorem of_sameTable (h : it.Accounts answers owed) (htable : it.SameTable after)
    (htrace : after.trace = it.trace) (hsteps : after.operationSteps = it.operationSteps) :
    after.Accounts answers owed := by
  have hclock := congrArg Clock.steps htable.strategy.clock
  refine ⟨fun id op hop => ?_, htable.strategy.wellFormed h.wellFormed, htrace ▸ h.trace,
    hclock.trans h.steps, hsteps ▸ h.operationSteps⟩
  rw [operation?, htable.operations] at hop
  exact h.numbered id op hop

/-- A numbered table in place of another one keeps the accounts. -/
theorem of_numbered (h : it.Accounts answers owed) (hnumbered : after.IsNumbered)
    (hstrategy : after.strategy = it.strategy) (htrace : after.trace = it.trace)
    (hsteps : after.operationSteps = it.operationSteps) : after.Accounts answers owed :=
  ⟨hnumbered, hstrategy ▸ h.wellFormed, htrace ▸ h.trace, hstrategy ▸ h.steps,
    hsteps ▸ h.operationSteps⟩

/-- Stopping keeps the accounts. -/
theorem stop (h : it.Accounts answers owed) (outcome : Outcome) :
    (it.stop outcome).Accounts answers owed :=
  h.of_sameTable (sameTable_stop outcome it) (trace_stop outcome it) (operationSteps_stop it outcome)

/-- Reporting a bug keeps the accounts. -/
theorem reportBug (h : it.Accounts answers owed) (kind : BugKind) (message : String) :
    (it.reportBug kind message).Accounts answers owed :=
  h.of_sameTable (sameTable_reportBug kind message it) (trace_reportBug kind message it)
    (operationSteps_reportBug it kind message)

/-- Reaching the bound keeps the accounts. -/
theorem endAtBound (h : it.Accounts answers owed) : it.endAtBound.Accounts answers owed :=
  h.of_sameTable (sameTable_endAtBound it) it.trace_endAtBound it.operationSteps_endAtBound

/-- Ending without a choice keeps the accounts. -/
theorem endWithoutChoice (h : it.Accounts answers owed) :
    it.endWithoutChoice.Accounts answers owed :=
  h.of_sameTable (sameTable_endWithoutChoice it) it.trace_endWithoutChoice
    it.operationSteps_endWithoutChoice

/-- A decision that is recorded is not owed any more. -/
theorem push (h : it.Accounts answers 1) {decision : Decision}
    (hoperations : after.operations = it.operations) (hstrategy : after.strategy = it.strategy)
    (htrace : after.trace = it.trace.push decision)
    (hsteps : after.operationSteps = it.operationSteps + decision.operation?.toList.length) :
    after.Accounts (answers ++ [decision]) 0 := by
  refine ⟨fun id op hop => ?_, hstrategy ▸ h.wellFormed, ?_, ?_, ?_⟩
  · rw [operation?, hoperations] at hop
    exact h.numbered id op hop
  · rw [htrace, Trace.toList_push, h.trace]
  · rw [hstrategy, h.steps, List.length_append]
    rfl
  · rw [hsteps, h.operationSteps, List.filterMap_append, List.length_append]
    cases decision <;> rfl

end Accounts

/-! ### Consultations -/

variable [RandomSource γ] {answers : List Decision} {it : Iteration γ}

section Answer

variable {query : Query} {op : Operation} {answer : Option query.Answer}
  {strategy taken : Strategy γ} {monitors : Monitors}

/-- An answer of the strategy is owed until it is recorded. -/
theorem Accounts.of_answer [LawfulRandomSource γ] (hit : it.Accounts answers 0)
    (hasked : query.IsAskedBy op)
    (hanswer : it.strategy.answer op query it.monitors = (answer, strategy, monitors)) :
    ({ it with strategy, monitors } : Iteration γ).Accounts answers answer.isSome.toNat := by
  have hanswered := Strategy.answered hasked hit.wellFormed it.monitors
  rw [hanswer] at hanswered
  have hsteps : strategy.steps = it.strategy.steps + answer.isSome.toNat :=
    congrArg Clock.steps hanswered.clock
  rw [hit.steps] at hsteps
  exact ⟨hit.numbered, hanswered.wellFormed, hit.trace, hsteps, hit.operationSteps⟩

omit [RandomSource γ] in
/-- Taking the fault of the strategy keeps the accounts. -/
theorem Accounts.of_takeFault {owed : Nat} {fault : Option Fault} (hit : it.Accounts answers owed)
    (hfault : it.strategy.takeFault = (fault, taken)) :
    ({ it with strategy := taken } : Iteration γ).Accounts answers owed := by
  have hkept := it.strategy.keeps_takeFault
  rw [hfault] at hkept
  exact hit.of_sameTable ⟨rfl, hkept⟩ rfl rfl

/-- A strategy finds a violation only instead of an answer. -/
theorem IsClean.answer_eq_none (hclean : it.IsClean) (hrunning : it.isRunning = true)
    {violation : LivenessViolation}
    (hanswer : it.strategy.answer op query it.monitors = (answer, strategy, monitors))
    (hviolation : monitors.violation = some violation) : answer = none := by
  by_contra hsome
  have hfound : (it.strategy.answer op query it.monitors).1.isSome = true := by
    rw [hanswer]
    exact Option.isSome_iff_ne_none.mpr hsome
  have hnone := Strategy.violation_of_answered (hclean.unviolated hrunning) hfound
  rw [hanswer] at hnone
  cases hviolation.symm.trans hnone

/-- A strategy has a fault only instead of an answer, and the iteration is clean once it is taken. -/
theorem IsClean.of_takeFault (hclean : it.IsClean) (hrunning : it.isRunning = true)
    {fault : Option Fault}
    (hanswer : it.strategy.answer op query it.monitors = (answer, strategy, monitors))
    (hviolation : monitors.violation = none) (hfault : strategy.takeFault = (fault, taken)) :
    ({ it with strategy := taken, monitors } : Iteration γ).IsClean ∧
      (answer.isSome = true → fault = none) := by
  obtain ⟨hsome, hfaultless⟩ :=
    Strategy.isFaultless_answer (hclean.faultless hrunning) op query it.monitors
  rw [hanswer] at hsome hfaultless
  dsimp only [Strategy.IsFaultless] at hsome hfaultless
  rw [hfault] at hsome hfaultless
  exact ⟨⟨fun _ => hviolation, fun _ => hfaultless⟩, hsome⟩

end Answer

/-- How a consultation leaves the accounts. -/
theorem Consulted.accounts [LawfulRandomSource γ] {query : Query}
    {result : Except Fault (Option (Option query.Answer)) × Iteration γ}
    (h : Consulted query it result) (hit : it.Accounts answers 0) (hclean : it.IsClean)
    (hrunning : it.isRunning = true)
    (hquery : ∀ op, it.operation? it.current = some op → query.IsAskedBy op) :
    result.2.IsClean ∧
    (∀ value, result.1 = .ok (some (some value)) →
      result.2.Accounts answers 1 ∧ value ∈ query.alternatives) ∧
    ((∀ value, result.1 ≠ .ok (some (some value))) → result.2.Accounts answers 0) := by
  cases h with
  | unknown => exact ⟨hclean, fun value hvalue => (by cases hvalue), fun _ => hit⟩
  | violated hop hanswer hviolation =>
    have haccounts := hit.of_answer (hquery _ hop) hanswer
    obtain rfl := hclean.answer_eq_none hrunning hanswer hviolation
    exact ⟨isClean_of_ended (isRunning_reportBug _ _ _), fun value hvalue => (by cases hvalue),
      fun _ => haccounts.reportBug _ _⟩
  | failed hop hanswer hviolation hfault =>
    have haccounts := (hit.of_answer (hquery _ hop) hanswer).of_takeFault hfault
    obtain ⟨hafter, hsome⟩ := hclean.of_takeFault hrunning hanswer hviolation hfault
    refine ⟨hafter, fun value hvalue => (by cases hvalue), fun _ => ?_⟩
    have hnone := Option.not_isSome_iff_eq_none.mp fun hanswered => by cases hsome hanswered
    rw [hnone] at haccounts
    exact haccounts
  | @answered op answer strategy taken monitors hop hanswer hviolation hfault =>
    have haccounts := (hit.of_answer (hquery _ hop) hanswer).of_takeFault hfault
    obtain ⟨hafter, -⟩ := hclean.of_takeFault hrunning hanswer hviolation hfault
    have hmem := (Strategy.answered (hquery op hop) hit.wellFormed it.monitors).mem
    rw [hanswer] at hmem
    refine ⟨hafter, fun value hvalue => ?_, fun hnone => ?_⟩
    · obtain rfl : answer = some value := Option.some.inj (Except.ok.inj hvalue)
      exact ⟨haccounts, hmem value rfl⟩
    · cases answer with
      | none => exact haccounts
      | some value => exact absurd rfl (hnone value)

/-! ### Turns and values -/

/-- A call that is answered in some way keeps the accounts, and the iteration clean. -/
structure Settles (answers : List Decision) (replied : CallReply × Iteration γ) : Prop where
  accounts : replied.2.Accounts (answers ++ replied.1.decision?.toList) 0
  clean : replied.2.IsClean
  enabled : ∀ id, replied.1.decision? = some (.operation id) →
    ∃ op, replied.2.operation? id = some op ∧ op.isEnabled = true

omit [RandomSource γ] in
/-- Nothing has to be recorded for a call without an answer. -/
theorem settles_of_quiet {replied : CallReply × Iteration γ} (hquiet : replied.1.decision? = none)
    (haccounts : replied.2.Accounts answers 0) (hclean : replied.2.IsClean) :
    Settles answers replied := by
  refine ⟨?_, hclean, fun id hid => by cases hquiet.symm.trans hid⟩
  rw [hquiet, Option.toList_none, List.append_nil]
  exact haccounts

/-- A turn that is asked for settles. -/
theorem settles_scheduleNext [LawfulRandomSource γ] (hit : it.Accounts answers 0)
    (hclean : it.IsClean) : Settles answers (reply .operation it.scheduleNext) := by
  have hscheduled := it.scheduled
  generalize it.scheduleNext = result at hscheduled
  have hwaiting : it.enableWaiting.Accounts answers 0 :=
    hit.of_numbered hit.numbered.enableWaiting rfl rfl rfl
  cases hscheduled with
  | ended => exact settles_of_quiet rfl hit hclean
  | empty => exact settles_of_quiet rfl hit hclean
  | completed =>
    exact settles_of_quiet rfl (hwaiting.stop _) (isClean_of_ended (isRunning_stop _ _))
  | atBound =>
    exact settles_of_quiet rfl hwaiting.endAtBound (isClean_of_ended (isRunning_endAtBound _))
  | consulted hbound hanswer hresult hopen =>
    obtain ⟨hafter, hgiven, hkept⟩ := hanswer.accounts hwaiting ⟨hclean.unviolated, hclean.faultless⟩
      hopen.1 fun op hop => hwaiting.numbered.isAskedBy hop
    have hoperations := hanswer.operations
    cases hresult with
    | failed => exact settles_of_quiet rfl (hkept fun value hvalue => by cases hvalue) hafter
    | violated => exact settles_of_quiet rfl (hkept fun value hvalue => by cases hvalue) hafter
    | unanswered =>
      have haccounts := hkept fun value hvalue => by cases hvalue
      exact settles_of_quiet rfl haccounts.endWithoutChoice
        (isClean_of_ended (isRunning_endWithoutChoice _))
    | @refused next fault after hrefused =>
      obtain ⟨haccounts, hmem⟩ := hgiven next rfl
      have henabled : next ∈ Operation.enabledIds after.operations := by
        rw [hoperations]
        exact hmem
      obtain ⟨op, hop, hable⟩ := haccounts.numbered.operation?_eq_some henabled
      cases (hrefused op hop).symm.trans hable
    | @scheduled next op after hop henabled =>
      obtain ⟨haccounts, -⟩ := hgiven next rfl
      refine ⟨haccounts.push rfl rfl rfl rfl, ⟨hafter.unviolated, hafter.faultless⟩, fun id hid => ?_⟩
      obtain rfl : next = id := Decision.operation.inj (Option.some.inj hid)
      exact ⟨op, hop, henabled⟩

/-- A value that is asked for settles. -/
theorem settles_choose [LawfulRandomSource γ] {query : Query} (hquery : query.IsValue)
    (hit : it.Accounts answers 0) (hclean : it.IsClean) :
    Settles answers (reply query.decision (it.choose query)) := by
  have hchosen := it.chosen query
  generalize it.choose query = result at hchosen
  have hafter {result : Except Fault (Option (Option query.Answer)) × Iteration γ}
      (hanswer : Consulted query it result) (hrunning : it.isRunning = true) :=
    hanswer.accounts hit hclean hrunning fun op _ => hquery.isAskedBy op
  cases hchosen with
  | ended => exact settles_of_quiet rfl hit hclean
  | atBound =>
    exact settles_of_quiet rfl hit.endAtBound (isClean_of_ended (isRunning_endAtBound _))
  | failed _ hrunning hanswer =>
    obtain ⟨hcleaned, -, hkept⟩ := hafter hanswer hrunning
    exact settles_of_quiet rfl (hkept fun value hvalue => by cases hvalue) hcleaned
  | violated _ hrunning hanswer =>
    obtain ⟨hcleaned, -, hkept⟩ := hafter hanswer hrunning
    exact settles_of_quiet rfl (hkept fun value hvalue => by cases hvalue) hcleaned
  | unanswered _ hrunning hanswer =>
    obtain ⟨hcleaned, -, hkept⟩ := hafter hanswer hrunning
    exact settles_of_quiet rfl (hkept fun value hvalue => by cases hvalue) hcleaned
  | @given _ hrunning value after hanswer =>
    obtain ⟨hcleaned, hgiven, -⟩ := hafter hanswer hrunning
    have hturn : (query.decision value).operation? = none := by
      cases query with
      | operation => exact hquery.elim
      | _ => rfl
    refine ⟨(hgiven value rfl).1.push rfl rfl rfl ?_, ⟨hcleaned.unviolated, hcleaned.faultless⟩,
      fun id hid => ?_⟩
    · rw [hturn]
      rfl
    · have hsame := congrArg Decision.operation? (Option.some.inj hid)
      cases hturn.symm.trans hsame

/-! ### Calls one after another -/

omit [RandomSource γ] in
/-- A registered operation is numbered by its place. -/
theorem IsNumbered.register (h : it.IsNumbered) (name : String) :
    (it.register name).2.IsNumbered := by
  intro id op hop
  have hplace : (it.operations ++ [Operation.new ⟨it.operations.length⟩ name])[id.index]? = some op := hop
  rw [List.getElem?_append] at hplace
  split at hplace
  · exact h id op hplace
  · next hbeyond =>
    rw [List.getElem?_singleton] at hplace
    split at hplace
    · next hnew =>
      obtain rfl := Option.some.inj hplace
      have hindex : it.operations.length = id.index := by omega
      exact congrArg OperationId.mk hindex
    · cases hplace

omit [RandomSource γ] in
/-- Changes of an operation that keep its number keep the table numbered. -/
theorem IsNumbered.update (h : it.IsNumbered) (id : OperationId) {f : Operation → Operation}
    (hf : ∀ op, (f op).id = op.id) : (it.update id f).IsNumbered := by
  intro other op hop
  have hplace : (it.operations.modify id.index f)[other.index]? = some op := hop
  rw [List.getElem?_modify, Option.map_eq_map, Option.map_eq_some_iff] at hplace
  obtain ⟨old, hold, rfl⟩ := hplace
  have hid := h other old hold
  split
  · rw [hf, hid]
  · exact hid

omit [RandomSource γ] in
/-- A transition keeps the number of an operation. -/
theorem id_apply (op : Operation) (transition : Transition) : (op.apply transition).id = op.id := by
  cases transition with
  | waitTasks ids all =>
    rw [Operation.apply, Operation.waitTasks]
    split <;> rfl
  | enableIfReady completed =>
    rw [Operation.apply, Operation.enableIfReady]
    split <;> rfl
  | waitEvents events =>
    rw [Operation.apply, Operation.waitEvents]
    split <;> rfl
  | waitResource resource =>
    rw [Operation.apply, Operation.waitResource]
    split <;> rfl
  | wakeOnRelease resource =>
    rw [Operation.apply, Operation.wakeOnRelease]
    split <;> rfl
  | _ => rfl

/-- A call keeps the table numbered. -/
theorem IsNumbered.perform (h : it.IsNumbered) (call : Call) : (it.perform call).2.IsNumbered := by
  have hkept {before after : Iteration γ} (hbefore : before.IsNumbered)
      (hsame : after.operations = before.operations) : after.IsNumbered := by
    intro id op hop
    rw [operation?, hsame] at hop
    exact hbefore id op hop
  cases call with
  | register name => exact h.register name
  | change id transition => exact h.update id fun op => id_apply op transition
  | recordState hashes => exact h.update it.current fun _ => rfl
  | schedule =>
    rcases it.operations_scheduleNext with hsame | hwaiting
    · exact hkept h hsame
    · exact hkept h.enableWaiting hwaiting
  | boolean => exact hkept h (it.operations_choose _)
  | integer bound => exact hkept h (it.operations_choose _)
  | reportBug kind message => exact hkept h (sameTable_reportBug kind message it).operations
  | stop outcome => exact hkept h (sameTable_stop outcome it).operations
  | setMonitor id isHot => exact h

/-- Every call settles. -/
theorem settles_perform [LawfulRandomSource γ] (hit : it.Accounts answers 0) (hclean : it.IsClean)
    (call : Call) : Settles answers (it.perform call) := by
  cases call with
  | register name =>
    exact settles_of_quiet rfl (hit.of_numbered (hit.numbered.register name) rfl rfl rfl)
      ⟨hclean.unviolated, hclean.faultless⟩
  | change id transition =>
    exact settles_of_quiet rfl (hit.of_numbered (hit.numbered.update id fun op => id_apply op transition)
      rfl rfl rfl) ⟨hclean.unviolated, hclean.faultless⟩
  | recordState hashes =>
    exact settles_of_quiet rfl (hit.of_numbered (hit.numbered.update it.current fun _ => rfl)
      rfl rfl rfl) ⟨hclean.unviolated, hclean.faultless⟩
  | schedule => exact settles_scheduleNext hit hclean
  | boolean =>
    have hquery : (Query.boolean 2).IsValue := trivial
    exact settles_choose hquery hit hclean
  | integer bound =>
    have hquery : (Query.integer bound).IsValue := trivial
    exact settles_choose hquery hit hclean
  | reportBug kind message =>
    exact settles_of_quiet rfl (hit.reportBug kind message)
      (isClean_of_ended (isRunning_reportBug _ _ _))
  | stop outcome =>
    exact settles_of_quiet rfl (hit.stop outcome) (isClean_of_ended (isRunning_stop _ _))
  | setMonitor id isHot =>
    exact settles_of_quiet rfl (hit.of_numbered hit.numbered rfl rfl rfl)
      ⟨hclean.unviolated, hclean.faultless⟩

/-- After calls the trace holds the answers to them, and every turn was given to an enabled
operation. -/
theorem accounts_after [LawfulRandomSource γ] (hit : it.Accounts answers 0) (hclean : it.IsClean)
    (calls : List Call) :
    (it.after calls).Accounts
        (answers ++ (it.history calls).filterMap fun entry => entry.1.decision?) 0 ∧
      ∀ entry ∈ it.history calls, ∀ id, entry.1.decision? = some (.operation id) →
        ∃ op, entry.2.operation? id = some op ∧ op.isEnabled = true := by
  induction calls generalizing it answers with
  | nil =>
    refine ⟨?_, List.forall_mem_nil _⟩
    rw [history, List.filterMap_nil, List.append_nil]
    exact hit
  | cons call rest ih =>
    have hsettled := settles_perform hit hclean call
    obtain ⟨haccounts, henabled⟩ := ih hsettled.accounts hsettled.clean
    refine ⟨?_, List.forall_mem_cons.mpr ⟨hsettled.enabled, henabled⟩⟩
    have hanswers : (it.history (call :: rest)).filterMap (fun entry => entry.1.decision?) =
        (it.perform call).1.decision?.toList ++
          ((it.perform call).2.history rest).filterMap fun entry => entry.1.decision? := by
      rw [history, List.filterMap_cons]
      cases (it.perform call).1.decision? <;> rfl
    rw [hanswers, ← List.append_assoc]
    exact haccounts

/-! ### After the ending -/

omit [RandomSource γ] in
/-- An iteration with an outcome does not go on. -/
theorem isRunning_of_outcome (h : it.outcome?.isSome = true) : it.isRunning = false := by
  rw [isRunning, decide_eq_false_iff_not]
  intro hrunning
  rw [outcome?, hrunning] at h
  cases h

/-- A call after the ending changes nothing of the record, and nothing is answered. -/
theorem sameOutcome_perform (h : it.outcome?.isSome = true) (call : Call) :
    it.SameOutcome (it.perform call).2 ∧
      ((it.perform call).1 = none ∨ (it.perform call).1 = some (.ok none)) := by
  have hended := isRunning_of_outcome h
  have hsame (it : Iteration γ) : it.SameOutcome it := ⟨rfl, rfl, rfl, rfl, rfl⟩
  cases call with
  | schedule =>
    have hnext : it.scheduleNext = (.ok none, it) := (Scheduled.ended hended).eq
    rw [perform, hnext]
    exact ⟨hsame it, .inr rfl⟩
  | boolean =>
    have hchoose : it.choose (.boolean 2) = (.ok none, it) := (Chosen.ended hended).eq
    rw [perform, hchoose]
    exact ⟨hsame it, .inr rfl⟩
  | integer bound =>
    have hchoose : it.choose (.integer bound) = (.ok none, it) := (Chosen.ended hended).eq
    rw [perform, hchoose]
    exact ⟨hsame it, .inr rfl⟩
  | reportBug kind message =>
    rw [perform, Iteration.reportBug, hended]
    exact ⟨hsame it, .inl rfl⟩
  | stop outcome =>
    rw [perform, Iteration.stop, hended]
    exact ⟨hsame it, .inl rfl⟩
  | _ => exact ⟨⟨rfl, rfl, rfl, rfl, rfl⟩, .inl rfl⟩

/-- Calls after the ending change nothing of the record, and nothing is answered. -/
theorem sameOutcome_after (h : it.outcome?.isSome = true) (calls : List Call) :
    it.SameOutcome (it.after calls) ∧
      ∀ entry ∈ it.history calls, entry.1 = none ∨ entry.1 = some (.ok none) := by
  induction calls generalizing it with
  | nil => exact ⟨⟨rfl, rfl, rfl, rfl, rfl⟩, List.forall_mem_nil _⟩
  | cons call rest ih =>
    obtain ⟨hsame, hquiet⟩ := sameOutcome_perform h call
    have hstill : (it.perform call).2.outcome?.isSome = true := by
      rw [hsame.outcome]
      exact h
    obtain ⟨hlater, hrest⟩ := ih hstill
    exact ⟨⟨hlater.trace.trans hsame.trace, hlater.outcome.trans hsame.outcome,
      hlater.message.trans hsame.message, hlater.steps.trans hsame.steps,
      hlater.operationSteps.trans hsame.operationSteps⟩, List.forall_mem_cons.mpr ⟨hquiet, hrest⟩⟩

/-- However a program drives an iteration with a fresh strategy and monitors without a violation, the
trace is what happened: it holds the answers in the order of the calls, the strategy and the count of
turns agree with it, every turn was given to an enabled operation, and after the first ending nothing
is answered and nothing of it changes. -/
theorem tellsCalls_of_fresh [LawfulRandomSource γ] {strategy : Strategy γ} (hfresh : strategy.Fresh)
    {monitors : Monitors} (hclean : monitors.violation = none) (coverage : Coverage)
    (depthBoundIsBug : Bool) (calls : List Call) :
    TellsCalls ({ strategy, monitors, coverage, depthBoundIsBug } : Iteration γ) calls := by
  obtain ⟨hwellFormed, hsteps, hfaultless⟩ := hfresh.atStart
  have hstart : Accounts [] 0 ({ strategy, monitors, coverage, depthBoundIsBug } : Iteration γ) :=
    ⟨fun id op hop => (by cases hop), hwellFormed, rfl, hsteps, rfl⟩
  obtain ⟨haccounts, henabled⟩ :=
    accounts_after hstart ⟨fun _ => hclean, fun _ => hfaultless⟩ calls
  rw [List.nil_append] at haccounts
  refine ⟨haccounts.trace, ?_, ?_, henabled, fun before later hcalls hended => ?_⟩
  · rw [haccounts.steps, Nat.add_zero, ← haccounts.trace, Trace.toList, Trace.size, Array.length_toList]
  · rw [haccounts.operationSteps, ← haccounts.trace]
    rfl
  · have happend (start : Iteration γ) : start.after calls = (start.after before).after later := by
      rw [hcalls]
      exact List.foldl_append
    rw [happend]
    exact sameOutcome_after hended later

/-- Two decisions depth first, and five at random with the monitors watched. -/
def depthFirstThenWatched : Strategy ChaChaSource :=
  .combo (.depthFirst { maxSteps := 2 }) (.liveness (.random (.ofSource (ChaChaSource.ofSeed 7) 5)))

/-- An operation is created, takes a turn, draws a value and is stopped before another turn. -/
def oneTurn : List Call :=
  [.register "a", .change ⟨0⟩ .create, .schedule, .boolean, .stop .completed, .schedule]

/-- One turn and one value are given before the stop, and no turn after it. -/
theorem tellsCalls_of_fresh_oneTurn : depthFirstThenWatched.Fresh ∧
    TellsCalls { strategy := depthFirstThenWatched } oneTurn ∧
    (after { strategy := depthFirstThenWatched } oneTurn).trace.toList =
      [.operation ⟨0⟩, .boolean true] := by
  have hfresh : depthFirstThenWatched.Fresh := .combo (.composed (.depthFirst 2) rfl)
    (.liveness (.composed (.random _ 5) rfl))
  exact ⟨hfresh, tellsCalls_of_fresh hfresh rfl {} false oneTurn, rfl⟩

end Iteration

end ScheduleExplorer
