import ScheduleExplorer.Proofs.Strategy.Walks
import ScheduleExplorer.Strategy.Novelty
import ScheduleExplorer.Strategy.QLearning

/-!
# Strategies that learn answer faithfully

Both learning strategies name the alternatives of a query by words, select a position in the list of
names, and answer with the alternative at that position. The position is in range whatever has been
learned and whatever floating-point arithmetic makes of it.
-/

namespace ScheduleExplorer

namespace Action

/-- Every alternative has one name. -/
@[simp] theorem length_ofQuery (query : Query) :
    (ofQuery query).length = query.alternatives.length := by
  cases query <;> simp [ofQuery, Query.alternatives]

/-- A position among the names belongs to an alternative. -/
theorem answerAt_mem {query : Query} {index : Nat} (h : index < (ofQuery query).length) :
    ∃ value ∈ query.alternatives, answerAt index query = some value := by
  rw [length_ofQuery] at h
  cases query with
  | operation ops => exact ⟨_, List.getElem_mem h, List.getElem?_eq_getElem h⟩
  | boolean bound => exact ⟨_, Query.mem_alternatives_boolean _ _, rfl⟩
  | integer bound =>
    refine ⟨index, ?_, rfl⟩
    rw [Query.mem_alternatives_integer]
    simpa only [Query.alternatives, List.length_range] using h

/-- Nothing is named only where nothing is possible. -/
theorem alternatives_eq_nil {query : Query} (h : ofQuery query = []) :
    query.alternatives = [] := by
  rw [← List.length_eq_zero_iff, ← length_ofQuery, h, List.length_nil]

end Action

variable {γ : Type} [RandomSource γ]

namespace QLearning

/-- A position that is reached belongs to a weight. -/
theorem reach_lt {total draw cumulative : Float} {index found : Nat} {weights : List Float}
    (h : reach total draw cumulative index weights = some found) :
    found < index + weights.length := by
  induction weights generalizing cumulative index with
  | nil => cases h
  | cons weight rest ih =>
    rw [reach] at h
    rw [List.length_cons]
    split at h
    · obtain rfl := Option.some.inj h
      omega
    · have hrest := ih h
      omega

/-- A softmax over some values selects one of them. -/
theorem softmaxIndex_lt {values : List Float} (hne : values ≠ []) (draw : Float) :
    softmaxIndex values draw < values.length := by
  have hpos := List.length_pos_of_ne_nil hne
  rw [softmaxIndex]
  cases hreach : reach _ draw 0.0 0 _ with
  | none =>
    rw [Option.getD_none]
    omega
  | some found =>
    have hlt := reach_lt hreach
    rw [List.length_map] at hlt
    rw [Option.getD_some]
    omega

/-- Learning from experience answers faithfully. -/
theorem answered (current : Operation) (query : Query) (s : QLearning γ) :
    query.Answered s.walk.clock (s.answer current query).1 (s.answer current query).2.walk.clock := by
  rw [answer, answerBy]
  by_cases hempty : Action.ofQuery query = []
  · rw [if_pos (List.isEmpty_iff.mpr hempty)]
    exact .empty (Action.alternatives_eq_nil hempty)
  · rw [if_neg (mt List.isEmpty_iff.mp hempty)]
    dsimp only
    generalize hindex : softmaxIndex _ _ = index
    have hlt : index < (Action.ofQuery query).length := by
      rw [← hindex]
      exact Nat.lt_of_lt_of_eq (softmaxIndex_lt (mt List.map_eq_nil_iff.mp hempty) _)
        (List.length_map _)
    obtain ⟨value, hmem, hvalue⟩ := Action.answerAt_mem hlt
    rw [hvalue]
    exact .some hmem rfl

omit [RandomSource γ] in
/-- Learning from a path takes no step. -/
theorem walk_learnPath (path : List (Option UInt64 × UInt64)) (s : QLearning γ) :
    (learnPath path s).walk = s.walk := by
  fun_induction learnPath path s with
  | case1 earlier state action next rest s learned ih =>
    rw [ih]
    cases action <;> rfl
  | case2 => rfl

/-- Preparing the learner restarts its clock. -/
@[simp] theorem clock_prepare (s : QLearning γ) : s.prepare.walk.clock = s.walk.clock.restart := by
  have hlearned := walk_learnPath s.path.reverse s
  simp only [prepare, RandomWalk.clock_prepare]
  split
  · change (learnPath _ s).walk.clock.restart = _
    rw [hlearned]
  · rw [hlearned]

end QLearning

namespace NoveltyWalk

omit [RandomSource γ] in
/-- Every candidate is a position among the actions. -/
theorem lt_of_mem_candidates {state : UInt64} {actions : List UInt64} {s : NoveltyWalk γ}
    {position : Nat} (h : position ∈ s.candidates state actions) : position < actions.length := by
  have hrange {α : Type} {items : List α} {p : α × Nat → Bool}
      (hmem : position ∈ (items.zipIdx.filter p).map (·.2)) : position < items.length := by
    obtain ⟨entry, hentry, rfl⟩ := List.mem_map.mp hmem
    exact List.snd_lt_of_mem_zipIdx (List.mem_of_mem_filter hentry)
  rw [candidates] at h
  split at h
  · simpa only [List.length_map] using hrange h
  · exact hrange h

omit [RandomSource γ] in
/-- Whichever candidate is drawn, its position is one among the actions. -/
theorem position_lt {actions : List UInt64} (hne : actions ≠ []) (state : UInt64)
    (s : NoveltyWalk γ) (draw : Nat) :
    (s.candidates state actions)[draw]?.getD 0 < actions.length := by
  cases hdrawn : (s.candidates state actions)[draw]? with
  | none => exact List.length_pos_of_ne_nil hne
  | some position => exact lt_of_mem_candidates (List.mem_of_getElem? hdrawn)

/-- Preferring what is new answers faithfully. -/
theorem answered (current : Operation) (query : Query) (s : NoveltyWalk γ) :
    query.Answered s.walk.clock (s.answer current query).1 (s.answer current query).2.walk.clock := by
  rw [answer]
  by_cases hempty : Action.ofQuery query = []
  · rw [if_pos (List.isEmpty_iff.mpr hempty)]
    exact .empty (Action.alternatives_eq_nil hempty)
  · rw [if_neg (mt List.isEmpty_iff.mp hempty)]
    obtain ⟨value, hmem, hvalue⟩ := Action.answerAt_mem (position_lt hempty
      (current.hashes.atLevel s.level)
      { s with visits := s.visits.record (current.hashes.atLevel s.level) } _)
    dsimp only
    rw [hvalue]
    exact .some hmem rfl

omit [RandomSource γ] in
/-- Learning from a path takes no step. -/
theorem walk_learnPath (path : List (UInt64 × UInt64)) (s : NoveltyWalk γ) :
    (learnPath path s).walk = s.walk := by
  fun_induction learnPath path s with
  | case1 s state action next nextAction rest ih => rw [ih, learnStep]
  | case2 => rfl

/-- Preparing the strategy restarts its clock. -/
@[simp] theorem clock_prepare (s : NoveltyWalk γ) :
    s.prepare.walk.clock = s.walk.clock.restart := by
  simp only [prepare, RandomWalk.clock_prepare, walk_learnPath]

end NoveltyWalk

end ScheduleExplorer
