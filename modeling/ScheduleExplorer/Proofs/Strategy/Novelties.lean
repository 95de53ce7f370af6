import ScheduleExplorer.Proofs.Random.Lawful
import ScheduleExplorer.Proofs.Strategy.Delays
import ScheduleExplorer.Proofs.Strategy.Learning
import Std.Data.TreeMap.Lemmas

/-!
# What is new to a strategy

A strategy that prefers what is new is asked, moved on and reset in some order. When it moves on it
learns where the actions of the iteration led to: the state of an action's follower, which is the next
decision of the iteration. Of several followers it keeps the last one.

An action is preferred if no earlier iteration went on after it in the same state. If there is no such
action, an action is preferred whose follower has been visited least. The last decision of an iteration
has no follower, so an action that was only ever taken there is preferred as if it were new.
-/

namespace ScheduleExplorer

namespace Action

/-- The name of an answer. -/
def ofAnswer : (query : Query) → query.Answer → UInt64
  | .operation _, id => ofOperation id
  | .boolean _, value => if value then ofTrue else ofFalse
  | .integer _, value => ofInteger value

/-- The names are those of the alternatives, in order. -/
theorem ofQuery_eq_map (query : Query) : ofQuery query = query.alternatives.map (ofAnswer query) := by
  cases query <;> rfl

/-- The answer at a position is the alternative there. -/
theorem answerAt_eq_getElem? {query : Query} {index : Nat} (h : index < query.alternatives.length) :
    answerAt index query = query.alternatives[index]? := by
  cases query with
  | operation ops => rfl
  | boolean bound =>
    have hcases : index = 0 ∨ index = 1 := by
      change index < 2 at h
      omega
    rcases hcases with rfl | rfl <;> rfl
  | integer bound =>
    rw [Query.alternatives, List.length_range] at h
    exact (List.getElem?_range h).symm

end Action

namespace NoveltyWalk

variable {γ : Type}

/-! ### Transitions -/

/-- The states and actions of an iteration that had a follower, each with the state of the follower.
As in the iteration, the last one stands first. -/
def transitions : List (UInt64 × UInt64) → List ((UInt64 × UInt64) × UInt64)
  | follower :: taken :: earlier => (taken, follower.1) :: transitions (taken :: earlier)
  | _ => []

/-- Entering where an action led to changes the successor of this action in its state. -/
theorem successor?_learnStep (state action next : UInt64) (s : NoveltyWalk γ)
    (other otherAction : UInt64) :
    (s.learnStep state action next).successor? other otherAction =
      if (other, otherAction) = (state, action) then some next
      else s.successor? other otherAction := by
  rw [successor?, successor?, learnStep, Std.TreeMap.getElem?_insert]
  simp only [Std.LawfulEqCmp.compare_eq_iff_eq, Prod.mk.injEq]
  by_cases hstate : state = other
  · subst hstate
    rw [if_pos rfl, Option.bind_some, Std.TreeMap.getElem?_insert,
      Std.TreeMap.getD_eq_getD_getElem?]
    simp only [Std.LawfulEqCmp.compare_eq_iff_eq, true_and, eq_comm (a := action)]
    cases s.successors[state]? with
    | none => rfl
    | some known => rfl
  · rw [if_neg hstate, if_neg fun hboth => hstate hboth.1.symm]

/-- Learning from a path enters the last transition last. -/
theorem learnPath_append (path : List (UInt64 × UInt64)) (taken follower : UInt64 × UInt64)
    (s : NoveltyWalk γ) :
    learnPath (path ++ [taken, follower]) s =
      (learnPath (path ++ [taken]) s).learnStep taken.1 taken.2 follower.1 := by
  induction path generalizing s with
  | nil => rfl
  | cons first rest ih =>
    cases rest with
    | nil => rfl
    | cons second rest => exact ih _

/-- After learning from an iteration, the successor of an action is its last follower there, or what
it was before. -/
theorem successor?_learnPath (path : List (UInt64 × UInt64)) (s : NoveltyWalk γ)
    (state action : UInt64) :
    (learnPath path.reverse s).successor? state action =
      ((transitions path).lookup (state, action)).or (s.successor? state action) := by
  induction path with
  | nil => rfl
  | cons follower earlier ih =>
    cases earlier with
    | nil => rfl
    | cons taken earlier =>
      rw [List.reverse_cons, List.reverse_cons, List.append_assoc]
      rw [List.reverse_cons] at ih
      change (learnPath (earlier.reverse ++ [taken, follower]) s).successor? state action = _
      rw [learnPath_append, successor?_learnStep, ih, transitions, List.lookup_cons]
      by_cases hsame : (state, action) = taken
      · rw [if_pos hsame, hsame, beq_self_eq_true]
        rfl
      · rw [if_neg hsame, beq_false_of_ne hsame]

/-- Learning changes where actions led to. -/
theorem learnPath_eq (path : List (UInt64 × UInt64)) (s : NoveltyWalk γ) :
    learnPath path s = { s with successors := (learnPath path s).successors } := by
  fun_induction learnPath path s with
  | case1 s state action next nextAction rest ih => exact ih
  | case2 => rfl

/-! ### Candidates -/

/-- The actions that are drawn from if some of them have no known successor. -/
theorem mem_fresh {state : UInt64} {actions : List UInt64} {s : NoveltyWalk γ} {position : Nat} :
    position ∈ s.fresh state actions ↔
      ∃ action, actions[position]? = some action ∧ s.successor? state action = none := by
  simp only [fresh, List.mem_map, List.mem_filter, Prod.exists, exists_eq_right, Option.isNone_iff_eq_none,
    List.mem_zipIdx_iff_getElem?]

/-- The fewest visits to a successor. -/
theorem min?_successorVisits {actions : List UInt64} (hne : actions ≠ []) (state : UInt64)
    (s : NoveltyWalk γ) :
    ∃ least, (actions.map fun action => s.successorVisits state action).min? = some least ∧
      (∃ action ∈ actions, s.successorVisits state action = least) ∧
      ∀ action ∈ actions, least ≤ s.successorVisits state action := by
  have hvisits : (actions.map fun action => s.successorVisits state action) ≠ [] := by
    rwa [ne_eq, List.map_eq_nil_iff]
  exact ⟨_, List.min?_eq_some_min hvisits, List.mem_map.mp (List.min_mem hvisits),
    fun action haction => List.min_le_of_mem (List.mem_map_of_mem haction)⟩

/-- The actions that are drawn from if all of them have a known successor. -/
theorem mem_leastVisited {state : UInt64} {actions : List UInt64} {s : NoveltyWalk γ}
    {position : Nat} :
    position ∈ s.leastVisited state actions ↔
      ∃ action, actions[position]? = some action ∧
        ∀ other ∈ actions, s.successorVisits state action ≤ s.successorVisits state other := by
  have hmem : position ∈ s.leastVisited state actions ↔ ∃ action, actions[position]? = some action ∧
      s.successorVisits state action =
        ((actions.map fun action => s.successorVisits state action).min?).getD 0 := by
    simp [leastVisited, List.mem_zipIdx_iff_getElem?]
  rw [hmem]
  refine exists_congr fun action => and_congr_right fun haction => ?_
  have hactions := List.mem_of_getElem? haction
  obtain ⟨least, hmin, ⟨other, hother, hleast⟩, hle⟩ :=
    min?_successorVisits (List.ne_nil_of_mem hactions) state s
  rw [hmin, Option.getD_some]
  exact ⟨fun heq _ hany => heq ▸ hle _ hany, fun hall =>
    Nat.le_antisymm (hleast ▸ hall other hother) (hle action hactions)⟩

/-- An action that is drawn has no known successor if there is such an action, and otherwise its
successor is visited least. -/
theorem candidates_spec {state : UInt64} {actions : List UInt64} {s : NoveltyWalk γ} {position : Nat}
    (h : position ∈ s.candidates state actions) :
    ∃ action, actions[position]? = some action ∧
      ((∃ other ∈ actions, s.successor? state other = none) → s.successor? state action = none) ∧
      ((∀ other ∈ actions, s.successor? state other ≠ none) →
        ∀ other ∈ actions, s.successorVisits state action ≤ s.successorVisits state other) := by
  rw [candidates] at h
  split at h
  · next hnone =>
    obtain ⟨action, haction, hleast⟩ := mem_leastVisited.mp h
    refine ⟨action, haction, ?_, fun _ => hleast⟩
    rintro ⟨other, hother, hfresh⟩
    obtain ⟨index, hindex⟩ := List.mem_iff_getElem?.mp hother
    have hmem : index ∈ s.fresh state actions := mem_fresh.mpr ⟨other, hindex, hfresh⟩
    rw [hnone] at hmem
    cases hmem
  · obtain ⟨action, haction, hfresh⟩ := mem_fresh.mp h
    exact ⟨action, haction, fun _ => hfresh, fun hall =>
      absurd hfresh (hall action (List.mem_of_getElem? haction))⟩

/-- There is an action to draw. -/
theorem candidates_ne_nil {actions : List UInt64} (hne : actions ≠ []) (state : UInt64)
    (s : NoveltyWalk γ) : s.candidates state actions ≠ [] := by
  rw [candidates]
  split
  · obtain ⟨least, -, ⟨action, haction, rfl⟩, hle⟩ := min?_successorVisits hne state s
    obtain ⟨position, hposition⟩ := List.mem_iff_getElem?.mp haction
    exact List.ne_nil_of_mem (mem_leastVisited.mpr ⟨action, hposition, hle⟩)
  · next hfresh => exact hfresh

/-- The strategy with one more visit to the state of the running operation. -/
def visit (current : Operation) (s : NoveltyWalk γ) : NoveltyWalk γ :=
  { s with visits := s.visits.record (current.hashes.atLevel s.level) }

variable [RandomSource γ]

/-- What a query does that has an alternative: it visits the state, and takes the action of the
alternative that it answers. The action is a candidate if draws are below their bounds. -/
theorem answer_eq (current : Operation) {query : Query} (hsome : query.alternatives ≠ [])
    (s : NoveltyWalk γ) :
    ∃ (index : Nat) (value : query.Answer) (walk : RandomWalk γ),
      query.alternatives[index]? = some value ∧
      s.answer current query = (some value, { s.visit current with
        path := (current.hashes.atLevel s.level, Action.ofAnswer query value) :: s.path
        walk }) ∧
      ((∀ (bound : Nat) (source : γ), 0 < bound → (RandomSource.nextBounded bound source).1 < bound) →
        index ∈ (s.visit current).candidates (current.hashes.atLevel s.level)
          (Action.ofQuery query)) := by
  have hne : Action.ofQuery query ≠ [] := mt Action.alternatives_eq_nil hsome
  obtain ⟨positions, hpositions⟩ : ∃ positions, (s.visit current).candidates
      (current.hashes.atLevel s.level) (Action.ofQuery query) = positions := ⟨_, rfl⟩
  obtain ⟨index, hindex⟩ : ∃ index,
      positions[(s.walk.draw positions.length).1]?.getD 0 = index := ⟨_, rfl⟩
  have hlt : index < query.alternatives.length := by
    rw [← Action.length_ofQuery, ← hindex, ← hpositions]
    exact position_lt hne _ _ _
  have hvalue := List.getElem?_eq_getElem hlt
  refine ⟨index, _, (s.walk.draw positions.length).2.step, hvalue, ?_, fun hdraws => ?_⟩
  · have haction : (Action.ofQuery query)[index]? =
        some (Action.ofAnswer query query.alternatives[index]) := by
      rw [Action.ofQuery_eq_map, List.getElem?_map, hvalue]
      rfl
    rw [visit] at hpositions
    simp only [answer, List.isEmpty_iff, hne, if_false, visit, hpositions, hindex, haction,
      Action.answerAt_eq_getElem? hlt, hvalue, Option.getD_some]
  · have hpos : 0 < positions.length :=
      List.length_pos_of_ne_nil (hpositions ▸ candidates_ne_nil hne _ _)
    have hdraw : (s.walk.draw positions.length).1 < positions.length := hdraws _ s.walk.source hpos
    rw [List.getElem?_eq_getElem hdraw, Option.getD_some] at hindex
    exact hpositions ▸ hindex ▸ List.getElem_mem hdraw

/-! ### Histories -/

open DelayBounding (Call)

/-- The strategy after a call. -/
def perform (s : NoveltyWalk γ) : Call → NoveltyWalk γ
  | .answer current query => (s.answer current query).2
  | .prepare => s.prepare
  | .reset => s.reset

/-- The strategy after a history, in which the last call stands first. -/
def after (s : NoveltyWalk γ) : List Call → NoveltyWalk γ
  | [] => s
  | call :: past => (s.after past).perform call

/-- The state and the action of an answer; none if there is no alternative. -/
def taken? (s : NoveltyWalk γ) (current : Operation) (query : Query) : Option (UInt64 × UInt64) :=
  (s.answer current query).1.map fun value =>
    (current.hashes.atLevel s.level, Action.ofAnswer query value)

/-- The states and actions of the iteration, last first. -/
def iteration (s : NoveltyWalk γ) : List Call → List (UInt64 × UInt64)
  | [] | .prepare :: _ | .reset :: _ => []
  | .answer current query :: past =>
    ((s.after past).taken? current query).toList ++ s.iteration past

/-- The iterations that the strategy moved on from, last first. -/
def earlier (s : NoveltyWalk γ) : List Call → List (List (UInt64 × UInt64))
  | [] => []
  | .prepare :: past => s.iteration past :: s.earlier past
  | .answer .. :: past | .reset :: past => s.earlier past

/-- The states of all answers, last first. -/
def visited (s : NoveltyWalk γ) : List Call → List UInt64
  | [] => []
  | .answer current query :: past =>
    ((s.after past).taken? current query).toList.map (·.1) ++ s.visited past
  | .prepare :: past | .reset :: past => s.visited past

/-- The state of the last follower that an action taken from a state had in an earlier iteration. -/
def follower? (s : NoveltyWalk γ) (calls : List Call) (taken : UInt64 × UInt64) : Option UInt64 :=
  ((s.earlier calls).flatMap transitions).lookup taken

/-- A strategy knows its history. -/
structure Remembers (s : NoveltyWalk γ) (calls : List Call) : Prop where
  level : (s.after calls).level = s.level
  path : (s.after calls).path = s.iteration calls
  successor : ∀ state action,
    (s.after calls).successor? state action = s.follower? calls (state, action)
  visits : ∀ state, (s.after calls).visits.frequency state = (s.visited calls).count state

/-- An answer is remembered. -/
theorem Remembers.answer {s : NoveltyWalk γ} {calls : List Call} (h : s.Remembers calls)
    (current : Operation) (query : Query) : s.Remembers (.answer current query :: calls) := by
  by_cases hnone : query.alternatives = []
  · have hempty : (Action.ofQuery query).isEmpty = true := by
      rw [Action.ofQuery_eq_map, hnone]
      rfl
    have heq : (s.after calls).answer current query = (none, s.after calls) := by
      rw [NoveltyWalk.answer, if_pos hempty]
    have htaken : (s.after calls).taken? current query = none := by rw [taken?, heq]; rfl
    have hafter : s.after (.answer current query :: calls) = s.after calls := by
      rw [after, perform, heq]
    refine ⟨?_, ?_, ?_, ?_⟩
    · rw [hafter, h.level]
    · rw [hafter, h.path, iteration, htaken]
      rfl
    · intro state action
      rw [hafter, h.successor]
      rfl
    · intro state
      rw [hafter, h.visits, visited, htaken]
      rfl
  · obtain ⟨index, value, walk, -, heq, -⟩ := answer_eq current hnone (s.after calls)
    have htaken : (s.after calls).taken? current query =
        some (current.hashes.atLevel (s.after calls).level, Action.ofAnswer query value) := by
      rw [taken?, heq]
      rfl
    have hafter : s.after (.answer current query :: calls) = _ := congrArg (·.2) heq
    refine ⟨?_, ?_, ?_, ?_⟩
    · rw [hafter]
      exact h.level
    · rw [hafter, iteration, htaken, ← h.path]
      rfl
    · intro state action
      rw [hafter]
      exact h.successor state action
    · intro state
      rw [hafter, visited, htaken]
      simp only [visit, VisitCounts.frequency_record, h.visits, Option.toList_some, List.map_cons,
        List.map_nil, List.cons_append, List.nil_append, List.count_cons, beq_iff_eq]

/-- Moving on is remembered. -/
theorem Remembers.prepare {s : NoveltyWalk γ} {calls : List Call} (h : s.Remembers calls) :
    s.Remembers (.prepare :: calls) := by
  refine ⟨?_, rfl, ?_, ?_⟩
  · rw [after, perform, NoveltyWalk.prepare, learnPath_eq]
    exact h.level
  · intro state action
    have hlearned : (s.after (.prepare :: calls)).successor? state action =
        (learnPath (s.after calls).path.reverse (s.after calls)).successor? state action := rfl
    rw [hlearned, successor?_learnPath, h.path, h.successor, follower?, follower?, earlier,
      List.flatMap_cons, List.lookup_append]
  · intro state
    rw [after, perform, NoveltyWalk.prepare, learnPath_eq]
    exact h.visits state

/-- Whatever happens to a new strategy, it knows its history. -/
theorem remembers (source : γ) (maxSteps : Nat) (level : AbstractionLevel) (calls : List Call) :
    (ofSource source maxSteps level).Remembers calls := by
  induction calls with
  | nil => exact ⟨rfl, rfl, fun _ _ => rfl, fun _ => rfl⟩
  | cons call past ih =>
    cases call with
    | answer current query => exact ih.answer current query
    | prepare => exact ih.prepare
    | reset => exact ⟨ih.level, rfl, ih.successor, ih.visits⟩

/-- The successors that a query finds are the followers in the history. -/
theorem Remembers.successor?_visit {s : NoveltyWalk γ} {calls : List Call} (h : s.Remembers calls)
    (current : Operation) (action : UInt64) :
    ((s.after calls).visit current).successor? (current.hashes.atLevel (s.after calls).level) action =
      s.follower? calls (current.hashes.atLevel s.level, action) := by
  rw [← h.successor, h.level]
  rfl

/-- The visits that a query finds are those in the history, the one of the query among them. -/
theorem Remembers.frequency_visit {s : NoveltyWalk γ} {calls : List Call} (h : s.Remembers calls)
    (current : Operation) {query : Query} (hsome : query.alternatives ≠ []) (state : UInt64) :
    ((s.after calls).visit current).visits.frequency state =
      (s.visited (.answer current query :: calls)).count state := by
  obtain ⟨index, value, walk, -, heq, -⟩ := answer_eq current hsome (s.after calls)
  rw [← (h.answer current query).visits, after, perform, heq]

/-! ### Preferences -/

/-- Whether an answer is one that no earlier iteration gave in this state, if there is one. -/
def TakesUntaken (s : NoveltyWalk γ) (calls : List Call) (current : Operation) (query : Query)
    (value : query.Answer) : Prop :=
  (∃ other ∈ query.alternatives,
    (current.hashes.atLevel s.level, Action.ofAnswer query other) ∉ (s.earlier calls).flatten) →
  (current.hashes.atLevel s.level, Action.ofAnswer query value) ∉ (s.earlier calls).flatten

/-- An answer that is preferred after a history. The visits include the one of the query itself. -/
structure IsPreferred (s : NoveltyWalk γ) (calls : List Call) (current : Operation) (query : Query)
    (value : query.Answer) : Prop where
  /-- No earlier iteration went on after the answer, if there is such an alternative. -/
  fresh : (∃ other ∈ query.alternatives,
      s.follower? calls (current.hashes.atLevel s.level, Action.ofAnswer query other) = none) →
    s.follower? calls (current.hashes.atLevel s.level, Action.ofAnswer query value) = none
  /-- If there is none, the last follower of no alternative has fewer visits. -/
  least : (∀ other ∈ query.alternatives,
      s.follower? calls (current.hashes.atLevel s.level, Action.ofAnswer query other) ≠ none) →
    ∃ next, s.follower? calls (current.hashes.atLevel s.level, Action.ofAnswer query value) = some next ∧
      ∀ other ∈ query.alternatives, ∀ otherNext,
        s.follower? calls (current.hashes.atLevel s.level, Action.ofAnswer query other) =
          some otherNext →
        (s.visited (.answer current query :: calls)).count next ≤
          (s.visited (.answer current query :: calls)).count otherNext

/-- Whatever has happened to a strategy that prefers what is new, it answers a query that has an
alternative with a preferred one. -/
theorem prefers_new (hdraws : ∀ (bound : Nat) (source : γ), 0 < bound →
      (RandomSource.nextBounded bound source).1 < bound)
    (source : γ) (maxSteps : Nat) (level : AbstractionLevel) (calls : List Call)
    (current : Operation) {query : Query} (hsome : query.alternatives ≠ []) :
    ∃ value ∈ query.alternatives,
      (((ofSource source maxSteps level).after calls).answer current query).1 = some value ∧
      (ofSource source maxSteps level).IsPreferred calls current query value := by
  have h := remembers source maxSteps level calls
  generalize ofSource source maxSteps level = s at h
  obtain ⟨index, value, walk, hvalue, heq, hcandidate⟩ := answer_eq current hsome (s.after calls)
  obtain ⟨action, haction, hfresh, hleast⟩ := candidates_spec (hcandidate hdraws)
  obtain rfl : action = Action.ofAnswer query value := by
    rw [Action.ofQuery_eq_map, List.getElem?_map, hvalue] at haction
    exact (Option.some.inj haction).symm
  have hmem := List.mem_of_getElem? hvalue
  simp only [Action.ofQuery_eq_map, List.mem_map, exists_exists_and_eq_and, forall_exists_index,
    and_imp, forall_apply_eq_imp_iff₂, h.successor?_visit] at hfresh hleast
  refine ⟨value, hmem, by rw [heq], fun ⟨other, hother, hnew⟩ => hfresh other hother hnew,
    fun hall => ?_⟩
  obtain ⟨next, hnext⟩ := Option.ne_none_iff_exists'.mp (hall value hmem)
  refine ⟨next, hnext, fun other hother otherNext hotherNext => ?_⟩
  have hle := hleast hall other hother
  simpa only [successorVisits, h.successor?_visit, hnext, hotherNext,
    h.frequency_visit current hsome] using hle

/-- Two enabled operations. -/
def twoEnabled : List Operation :=
  [(Operation.new ⟨0⟩ "a").create, (Operation.new ⟨1⟩ "b").create]

/-- The first of two enabled operations asks for a turn. -/
def ask : Call :=
  .answer (Operation.new ⟨0⟩ "a").create (.operation twoEnabled)

/-- After an iteration of two decisions, the action that was followed up there is not new. -/
theorem prefers_new_twoEnabled :
    (∀ (bound : Nat) (source : Tape), 0 < bound → (RandomSource.nextBounded bound source).1 < bound) ∧
      (Query.operation twoEnabled).alternatives ≠ [] ∧
      (∃ value ∈ (Query.operation twoEnabled).alternatives,
        (((ofSource ({ words := #[0] } : Tape) 0 .default).after [.prepare, ask, ask]).answer
          (Operation.new ⟨0⟩ "a").create (.operation twoEnabled)).1 = some value ∧
        (ofSource ({ words := #[0] } : Tape) 0 .default).IsPreferred [.prepare, ask, ask]
          (Operation.new ⟨0⟩ "a").create (.operation twoEnabled) value) ∧
      (((ofSource ({ words := #[0] } : Tape) 0 .default).after [.prepare, ask, ask]).answer
        (Operation.new ⟨0⟩ "a").create (.operation twoEnabled)).1 = some ⟨1⟩ := by
  have hdraws (bound : Nat) (source : Tape) (hbound : 0 < bound) :
      (RandomSource.nextBounded bound source).1 < bound :=
    LawfulRandomSource.nextBounded_lt bound source hbound
  have hsome : (Query.operation twoEnabled).alternatives ≠ [] := by decide
  exact ⟨hdraws, hsome, prefers_new hdraws { words := #[0] } 0 .default _ _ hsome, by decide +kernel⟩

/-- An action that ended the only iteration so far is taken again, although another one has not been
taken. -/
theorem takes_taken_twoEnabled :
    (∀ (bound : Nat) (source : Tape), 0 < bound → (RandomSource.nextBounded bound source).1 < bound) ∧
      (((ofSource ({ words := #[0] } : Tape) 0 .default).after [.prepare, ask]).answer
        (Operation.new ⟨0⟩ "a").create (.operation twoEnabled)).1 = some ⟨0⟩ ∧
      ¬ (ofSource ({ words := #[0] } : Tape) 0 .default).TakesUntaken [.prepare, ask]
        (Operation.new ⟨0⟩ "a").create (.operation twoEnabled) ⟨0⟩ := by
  refine ⟨fun bound source => LawfulRandomSource.nextBounded_lt bound source, by decide +kernel,
    fun huntaken => ?_⟩
  have hother : ((Operation.new ⟨0⟩ "a").create.hashes.atLevel .default, Action.ofOperation ⟨1⟩) ∉
      ((ofSource ({ words := #[0] } : Tape) 0 .default).earlier [.prepare, ask]).flatten := by
    decide +kernel
  have htaken : ((Operation.new ⟨0⟩ "a").create.hashes.atLevel .default, Action.ofOperation ⟨0⟩) ∈
      ((ofSource ({ words := #[0] } : Tape) 0 .default).earlier [.prepare, ask]).flatten := by
    decide +kernel
  exact huntaken ⟨⟨1⟩, by decide, hother⟩ htaken

end NoveltyWalk

end ScheduleExplorer
