import ScheduleExplorer.Strategy.Bound
import ScheduleExplorer.Trace

/-!
# Possible answers and step counts

What a query can be answered with, and how a strategy counts its answers. A query for an operation
has no answer exactly when nothing is enabled; the other queries always have one.
-/

namespace ScheduleExplorer

namespace Query

/-- The possible answers to a query, in the order in which a search tries them. -/
def alternatives : (query : Query) → List query.Answer
  | .operation ops => Operation.enabledIds ops
  | .boolean _ => [true, false]
  | .integer bound => List.range (max bound 1)

/-- A query for an operation comes with a table that holds the running operation and no number
twice. -/
def IsAskedBy (current : Operation) : Query → Prop
  | .operation ops => current ∈ ops ∧ (ops.map Operation.id).Nodup
  | _ => True

/-- Whether a query asks for a value, and not for a turn. -/
def IsValue : Query → Prop
  | .operation _ => False
  | .boolean _ | .integer _ => True

/-- No possible answer to a query that is asked is there twice. -/
theorem IsAskedBy.nodup_alternatives {current : Operation} {query : Query}
    (h : query.IsAskedBy current) : query.alternatives.Nodup := by
  cases query with
  | operation ops => exact h.2.sublist (List.filter_sublist.map Operation.id)
  | boolean => simp [alternatives]
  | integer => exact List.nodup_range

/-- Any operation may ask for a value. -/
theorem IsValue.isAskedBy {query : Query} (h : query.IsValue) (current : Operation) :
    query.IsAskedBy current := by
  cases query with
  | operation => exact h.elim
  | _ => trivial

/-- There is a value to answer with. -/
theorem IsValue.alternatives_ne_nil {query : Query} (h : query.IsValue) :
    query.alternatives ≠ [] := by
  cases query with
  | operation => exact h.elim
  | boolean => exact List.cons_ne_nil _ _
  | integer bound => simp [alternatives]

/-- Every truth value is a possible answer. -/
@[simp] theorem mem_alternatives_boolean (bound : Nat) (value : Bool) :
    value ∈ (Query.boolean bound).alternatives := by
  cases value
  · exact List.mem_cons_of_mem _ List.mem_cons_self
  · exact List.mem_cons_self

/-- The possible integers are those below the bound; for the bound zero there is zero. -/
@[simp] theorem mem_alternatives_integer {bound value : Nat} :
    value ∈ (Query.integer bound).alternatives ↔ value < max bound 1 :=
  List.mem_range

end Query

/-- An operation of a table is enabled in it if its number is among the enabled ones. -/
theorem Operation.mem_enabledIds {ops : List Operation} {id : OperationId} :
    id ∈ Operation.enabledIds ops ↔ ∃ op ∈ ops, op.isEnabled = true ∧ op.id = id := by
  simp [Operation.enabledIds, and_assoc]

/-- How many decisions a strategy has taken in an iteration, and how many it may take. -/
structure Clock where
  steps : Nat
  maxSteps : Nat
deriving DecidableEq

namespace Clock

/-- The clock after a query, which counts if it was answered. -/
def tick (answered : Bool) (clock : Clock) : Clock :=
  { clock with steps := clock.steps + answered.toNat }

/-- The clock at the beginning of an iteration. -/
def restart (clock : Clock) : Clock :=
  { clock with steps := 0 }

/-- Whether the step bound is reached. -/
def atBound (clock : Clock) : Bool :=
  boundReached clock.steps clock.maxSteps

/-- A clock is at its bound if there is one and it has been reached. -/
theorem atBound_iff {clock : Clock} :
    clock.atBound = true ↔ 0 < clock.maxSteps ∧ clock.maxSteps ≤ clock.steps := by
  simp [atBound, boundReached]

/-- No clock is at its bound at the beginning. -/
@[simp] theorem atBound_restart (clock : Clock) : clock.restart.atBound = false := by
  rw [Bool.eq_false_iff, Ne, atBound_iff]
  simp only [restart]
  omega

/-- A query without an answer takes no step. -/
@[simp] theorem tick_false (clock : Clock) : clock.tick false = clock := rfl

/-- The number of decisions until the step bound, if there is one. -/
def remaining (clock : Clock) : Option Nat :=
  if clock.maxSteps = 0 then none else some (clock.maxSteps - clock.steps)

/-- The bound is reached when no decision remains. -/
theorem atBound_eq (clock : Clock) : clock.atBound = decide (clock.remaining = some 0) := by
  by_cases hzero : clock.maxSteps = 0
  · simp [atBound, boundReached, remaining, hzero]
  · have hpos : 0 < clock.maxSteps := Nat.pos_of_ne_zero hzero
    simp [atBound, boundReached, remaining, hzero, hpos, Nat.sub_eq_zero_iff_le]

/-- An answer takes one of the decisions that remain. -/
theorem remaining_tick (clock : Clock) :
    (clock.tick true).remaining = clock.remaining.map (· - 1) := by
  by_cases hzero : clock.maxSteps = 0
  · simp [remaining, tick, hzero]
  · simp [remaining, tick, hzero, Nat.sub_sub]

end Clock

/-- A query is answered faithfully: the answer is a possible one, there is none only where none is
possible, and the answer is counted. -/
structure Query.Answered (query : Query) (before : Clock) (answer : Option query.Answer)
    (after : Clock) : Prop where
  mem : ∀ value, answer = some value → value ∈ query.alternatives
  none : answer = none → query.alternatives = []
  clock : after = before.tick answer.isSome

namespace Query.Answered

/-- A possible answer, counted. -/
theorem some {query : Query} {before after : Clock} {value : query.Answer}
    (hmem : value ∈ query.alternatives) (hclock : after = before.tick true) :
    query.Answered before (.some value) after where
  mem _ heq := Option.some.inj heq ▸ hmem
  none heq := by cases heq
  clock := hclock

/-- No answer where none is possible. -/
theorem empty {query : Query} {clock : Clock} (hnone : query.alternatives = []) :
    query.Answered clock .none clock where
  mem _ heq := by cases heq
  none _ := hnone
  clock := rfl

end Query.Answered

end ScheduleExplorer
