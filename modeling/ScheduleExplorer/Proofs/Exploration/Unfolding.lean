import ScheduleExplorer.Proofs.Execution.Runs
import ScheduleExplorer.Proofs.Execution.SettledSteps
import ScheduleExplorer.Proofs.Exploration.DecisionTree

/-!
# The decision tree of a program

An execution goes on alone until it needs a decision, and then it goes on with the answer.
`Execution.unfold` is the tree of all that it may do, cut off at a step bound; its leaves are the
executions where nothing is left to do.

The tree says nothing of a strategy: it belongs to the program, and what a search finds in the
program is what it finds in the tree.
-/

namespace ScheduleExplorer

variable {γ σ μ : Type}

/-- How an execution goes on: alone, or with the answer to a query. -/
inductive Prospect (γ σ μ : Type) where
  | alone (after : Execution γ σ μ)
  | asking (current : Operation) (query : Query) (next : query.Answer → Execution γ σ μ)

/-- Ends an iteration at the step bound of a strategy that is not fair. -/
def Iteration.cutOff (it : Iteration γ) : Iteration γ :=
  if it.depthBoundIsBug then
    it.reportBug .assertion s!"Scheduling steps bound of {it.trace.size} reached"
  else it.stop .stepBoundReached

namespace Execution

/-- How an execution goes on when the turn is passed on. -/
def scheduling (maxSteps : Nat) (ex : Execution γ σ μ) : Prospect γ σ μ :=
  let it := ex.iteration.enableWaiting
  if ex.iteration.operations.isEmpty then .alone (ex.abort .emptyOperationSet)
  else if it.operations.all (·.status.isCompleted) then
    .alone { ex with iteration := it.stop .completed }
  else if boundReached it.trace.size maxSteps then .alone { ex with iteration := it.cutOff }
  else
    match it.operation? it.current with
    | none => .alone { ex with iteration := it.abort (.unknownOperation it.current) }
    | some op =>
      if Operation.anyEnabled it.operations then
        .asking op (.operation it.operations) fun next => { ex with iteration := it.schedule next }
      else .alone { ex with iteration := it.endWithoutChoice }

/-- How an execution goes on when a value is asked for. -/
def choosing (maxSteps : Nat) (id : OperationId) (next : σ) (query : Query)
    (wrap : query.Answer → Reply) (ex : Execution γ σ μ) : Prospect γ σ μ :=
  let it := ex.iteration
  if boundReached it.trace.size maxSteps then .alone { ex with iteration := it.cutOff }
  else
    match it.operation? it.current with
    | none => .alone { ex with iteration := it.abort (.unknownOperation it.current) }
    | some op =>
      .asking op query fun value =>
        { ex with iteration := { it with trace := it.trace.push (query.decision value) } }.reply id
          next (wrap value)

end Execution

/-- How an execution goes on after a turn. -/
def Turn.prospect (maxSteps : Nat) : Turn γ σ μ → Prospect γ σ μ
  | quiet ex => .alone ex
  | point ex => ex.scheduling maxSteps
  | choice id next query wrap ex => ex.choosing maxSteps id next query wrap
  | bug kind message ex => .alone (ex.mapIteration (·.reportBug kind message))
  | fault cause ex => .alone (ex.abort cause)

namespace Execution

/-- The decision tree of at most `fuel` steps of an execution. -/
def unfold (program : Program σ μ) (maxSteps : Nat) :
    Nat → Execution γ σ μ → DecisionTree (Execution γ σ μ)
  | 0, ex => .leaf ex
  | fuel + 1, ex =>
    match ex.turn? program with
    | none => .leaf ex
    | some turn =>
      match turn.prospect maxSteps with
      | .alone after => unfold program maxSteps fuel after
      | .asking current query next =>
        .ask current query fun answer => unfold program maxSteps fuel (next answer)

end Execution

/-! ### What is ahead of an execution -/

/-- An iteration has gone on without a change of its operations, its trace or its monitors. -/
structure Iteration.SameRecord (it after : Iteration γ) : Prop where
  operations : after.operations = it.operations
  trace : after.trace = it.trace
  monitors : after.monitors = it.monitors

namespace Iteration

/-- An ending changes no record. -/
theorem sameRecord_stop (outcome : Outcome) (it : Iteration γ) :
    it.SameRecord (it.stop outcome) := by
  rw [stop]
  split <;> exact ⟨rfl, rfl, rfl⟩

/-- A bug changes no record. -/
theorem sameRecord_reportBug (kind : BugKind) (message : String) (it : Iteration γ) :
    it.SameRecord (it.reportBug kind message) := by
  rw [reportBug]
  split <;> exact ⟨rfl, rfl, rfl⟩

/-- The end at the bound changes no record. -/
theorem sameRecord_cutOff (it : Iteration γ) : it.SameRecord it.cutOff := by
  rw [cutOff]
  split
  · exact sameRecord_reportBug _ _ it
  · exact sameRecord_stop _ it

/-- The end without a choice changes no record. -/
theorem sameRecord_endWithoutChoice (it : Iteration γ) : it.SameRecord it.endWithoutChoice := by
  rw [endWithoutChoice]
  split
  · exact sameRecord_reportBug _ _ it
  · exact sameRecord_stop _ it

end Iteration

/-- An execution that has been taken on: it is settled, has recorded some decisions, and has the
same record of violations. -/
structure Execution.TakenOn (before : Execution γ σ μ) (decisions : List Decision)
    (after : Execution γ σ μ) : Prop where
  settled : after.Settled
  trace : after.iteration.trace.toList = before.iteration.trace.toList ++ decisions
  violation : after.iteration.monitors.violation = before.iteration.monitors.violation

/-- A query that an execution asks before its bound, and that can be answered; with each answer the
execution is taken on. -/
structure Execution.Asks (before : Execution γ σ μ) (maxSteps : Nat) (current : Operation)
    (query : Query) (next : query.Answer → Execution γ σ μ) : Prop where
  isAskedBy : query.IsAskedBy current
  alternatives_ne_nil : query.alternatives ≠ []
  atBound : boundReached before.iteration.trace.size maxSteps = false
  takenOn : ∀ value, before.TakenOn [query.decision value] (next value)

/-- What is ahead of an execution: it is taken on without a decision, or it asks. -/
def Prospect.IsOf (before : Execution γ σ μ) (maxSteps : Nat) : Prospect γ σ μ → Prop
  | .alone after => before.TakenOn [] after
  | .asking current query next => before.Asks maxSteps current query next

namespace Execution

variable {ex : Execution γ σ μ}

/-- A settled execution is taken on as it is. -/
theorem Settled.takenOn (h : ex.Settled) : ex.TakenOn [] ex :=
  ⟨h, (List.append_nil _).symm, rfl⟩

/-- An execution has taken as many decisions more as it has recorded. -/
theorem TakenOn.size_trace {before after : Execution γ σ μ} {decisions : List Decision}
    (h : before.TakenOn decisions after) :
    after.iteration.trace.size = before.iteration.trace.size + decisions.length := by
  change after.iteration.trace.toList.length = before.iteration.trace.toList.length + _
  rw [h.trace, List.length_append]

/-- An iteration that changes no record takes its execution on. -/
theorem TakenOn.sameRecord {before : Execution γ σ μ} {decisions : List Decision}
    {it after : Iteration γ} (h : before.TakenOn decisions { ex with iteration := it })
    (hsame : it.SameRecord after) : before.TakenOn decisions { ex with iteration := after } where
  settled := h.settled.of_iteration (.inl hsame.operations)
  trace := (congrArg Trace.toList hsame.trace).trans h.trace
  violation := (congrArg Monitors.violation hsame.monitors).trans h.violation

/-- What is ahead when the turn is passed on. -/
theorem isOf_scheduling (h : ex.Settled) (maxSteps : Nat) : (ex.scheduling maxSteps).IsOf ex maxSteps := by
  have henabled : ex.TakenOn [] { ex with iteration := ex.iteration.enableWaiting } :=
    ⟨h.of_iteration (.inr rfl), (List.append_nil _).symm, rfl⟩
  rw [scheduling]
  split
  · exact h.takenOn.sameRecord ⟨rfl, rfl, rfl⟩
  · split
    · exact henabled.sameRecord (Iteration.sameRecord_stop _ _)
    · split
      · exact henabled.sameRecord (Iteration.sameRecord_cutOff _)
      · next hbound =>
        split
        · exact henabled.sameRecord ⟨rfl, rfl, rfl⟩
        · next op hop =>
          split
          · next hsome =>
            refine ⟨h.isNumbered.enableWaiting.isAskedBy hop, ?_, Bool.eq_false_iff.mpr hbound,
              fun next => ?_⟩
            · simpa [Operation.anyEnabled, Query.alternatives, Operation.enabledIds] using hsome
            · exact ⟨h.of_iteration (.inr rfl), Trace.toList_push _ _, rfl⟩
          · exact henabled.sameRecord (Iteration.sameRecord_endWithoutChoice _)

/-- What is ahead when a value is asked for. -/
theorem isOf_choosing (h : ex.Settled) (maxSteps : Nat) {id : OperationId} (hfree : ex.IsFree id)
    (next : σ) {query : Query} (hquery : query.IsValue) (wrap : query.Answer → Reply) :
    (ex.choosing maxSteps id next query wrap).IsOf ex maxSteps := by
  rw [choosing]
  split
  · exact h.takenOn.sameRecord (Iteration.sameRecord_cutOff _)
  · next hbound =>
    split
    · exact h.takenOn.sameRecord ⟨rfl, rfl, rfl⟩
    · next op hop =>
      refine ⟨hquery.isAskedBy op, hquery.alternatives_ne_nil, Bool.eq_false_iff.mpr hbound,
        fun value => ?_⟩
      have hrecorded : Settled { ex with iteration := { ex.iteration with
          trace := ex.iteration.trace.push (query.decision value) } } := h.of_iteration (.inl rfl)
      exact ⟨hrecorded.reply (fun slot hslot => hfree slot hslot) next (wrap value),
        Trace.toList_push _ _, rfl⟩

/-- What is ahead of an execution after a turn. -/
theorem isOf_prospect {turn : Turn γ σ μ} (h : turn.Settled) (maxSteps : Nat) :
    (turn.prospect maxSteps).IsOf turn.execution maxSteps := by
  cases turn with
  | quiet ex => exact Settled.takenOn h
  | point ex => exact isOf_scheduling h maxSteps
  | choice id next query wrap ex => exact isOf_choosing h.1 maxSteps h.2.1 next h.2.2 wrap
  | bug kind message ex =>
    exact (Settled.takenOn h).sameRecord (Iteration.sameRecord_reportBug kind message _)
  | fault cause ex => exact (Settled.takenOn h).sameRecord ⟨rfl, rfl, rfl⟩

/-- Executions are taken on one after the other. -/
theorem TakenOn.trans {before between after : Execution γ σ μ} {decisions more : List Decision}
    (h : before.TakenOn decisions between) (h' : between.TakenOn more after) :
    before.TakenOn (decisions ++ more) after :=
  ⟨h'.settled, by rw [h'.trace, h.trace, List.append_assoc], h'.violation.trans h.violation⟩

/-- What is ahead of an execution whose next turn is known. -/
theorem isOf_turn_prospect [RandomSource γ] (h : ex.Settled) {program : Program σ μ}
    {turn : Turn γ σ μ} (hturn : ex.turn? program = some turn) (maxSteps : Nat) :
    (turn.prospect maxSteps).IsOf ex maxSteps := by
  have hsame := (isOf_turn hturn).2.sameRun
  have htaken : ex.TakenOn [] turn.execution :=
    ⟨(h.turn hturn).execution, by rw [hsame.trace, List.append_nil], hsame.violation⟩
  have hahead := isOf_prospect (h.turn hturn) maxSteps
  generalize turn.prospect maxSteps = prospect at hahead ⊢
  cases prospect with
  | alone after => exact htaken.trans hahead
  | asking current query next =>
    exact ⟨hahead.isAskedBy, hahead.alternatives_ne_nil, hsame.trace ▸ hahead.atBound,
      fun value => htaken.trans (hahead.takenOn value)⟩

/-- The tree of a settled execution is proper. -/
theorem isProper_unfold [RandomSource γ] (h : ex.Settled) (program : Program σ μ)
    (maxSteps fuel : Nat) : (ex.unfold program maxSteps fuel).IsProper := by
  induction fuel generalizing ex with
  | zero => trivial
  | succ fuel ih =>
    rw [unfold]
    split
    · trivial
    · next turn hturn =>
      have hahead := isOf_turn_prospect h hturn maxSteps
      split
      · next after hprospect =>
        rw [hprospect] at hahead
        exact ih hahead.settled
      · next current query next hprospect =>
        rw [hprospect] at hahead
        exact ⟨hahead.alternatives_ne_nil, hahead.isAskedBy.nodup_alternatives,
          fun value _ => ih (hahead.takenOn value).settled⟩

/-- The tree asks nothing at the bound: nothing is left to cut off. -/
theorem truncate_unfold [RandomSource γ] (h : ex.Settled) (program : Program σ μ)
    (maxSteps fuel : Nat) :
    (ex.unfold program maxSteps fuel).truncate
        (Clock.mk ex.iteration.trace.size maxSteps).remaining =
      (ex.unfold program maxSteps fuel).truncate none := by
  induction fuel generalizing ex with
  | zero => rfl
  | succ fuel ih =>
    rw [unfold]
    split
    · rfl
    · next turn hturn =>
      have hahead := isOf_turn_prospect h hturn maxSteps
      split
      · next after hprospect =>
        rw [hprospect] at hahead
        have hafter := ih hahead.settled
        rwa [hahead.size_trace] at hafter
      · next current query next hprospect =>
        rw [hprospect] at hahead
        have hbound := Clock.atBound_eq ⟨ex.iteration.trace.size, maxSteps⟩
        rw [Clock.atBound, hahead.atBound, eq_comm, decide_eq_false_iff_not] at hbound
        rw [DecisionTree.truncate, if_neg hbound, DecisionTree.truncate, if_neg (by simp)]
        congr 1
        funext value
        have hafter := ih (hahead.takenOn value).settled
        rw [(hahead.takenOn value).size_trace] at hafter
        rw [← Clock.remaining_tick]
        exact hafter

end Execution

end ScheduleExplorer
