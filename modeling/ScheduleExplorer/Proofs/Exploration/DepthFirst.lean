import ScheduleExplorer.Proofs.Exploration.DecisionTree
import ScheduleExplorer.Strategy.DepthFirst
import Mathlib.Data.List.Chain
import Mathlib.Data.List.Nodup

/-!
# Depth-first search walks every path once

`DecisionTree.walks` lists the walks of a tree by recursion on the tree. Each of them but the last is
followed by the walk that the odometer prepares from it, and the odometer is empty after the last.
So the search takes the walks of the tree in the order of this list, which is the lexicographic
order of the positions of their answers.
-/

namespace ScheduleExplorer

open DecisionTree (Path)

variable {ε : Type}

namespace Odometer

/-- The choices recorded for the walk that follows a walk with the given choices. -/
def following (choices : List Choice) : List Choice :=
  (advanceReversed choices.reverse).reverse

/-- Only the last choice of a walk decides whether the choices before it are kept. -/
theorem following_concat (earlier : List Choice) (choice : Choice) :
    following (earlier ++ [choice]) =
      if choice.hasUntried then earlier ++ [{ choice with index := choice.index + 1 }]
      else following earlier := by
  rw [following, List.reverse_append, List.reverse_singleton, List.singleton_append,
    advanceReversed]
  split
  · rw [List.reverse_cons, List.reverse_reverse]
  · rfl

end Odometer

open Odometer (following)

/-- A walk with the positions of its answers. -/
structure Walk (ε : Type) where
  choices : List Choice
  decisions : List Decision
  ending : ε

namespace Walk

/-- The positions of the answers of a walk. -/
def indices (walk : Walk ε) : List Nat :=
  walk.choices.map Choice.index

/-- A walk that begins with one more answer. -/
def cons (query : Query) (index : Nat) (answer : query.Answer) (rest : Walk ε) : Walk ε where
  choices := ⟨query.alternatives.length, index⟩ :: rest.choices
  decisions := query.decision answer :: rest.decisions
  ending := rest.ending

end Walk

namespace DecisionTree

/-- The walks of a tree, those through the first alternative first. -/
def walks : DecisionTree ε → List (Walk ε)
  | leaf ending => [⟨[], [], ending⟩]
  | ask _ query child =>
    (query.alternatives.mapIdx fun index answer =>
      (child answer).walks.map (Walk.cons query index answer)).flatten

/-- A walk that takes the recorded choices and then the first alternative of every query. -/
inductive Completes : DecisionTree ε → List Choice → Walk ε → Prop where
  | leaf (ending : ε) : Completes (.leaf ending) [] ⟨[], [], ending⟩
  | recorded {current : Operation} {query : Query} {child : query.Answer → DecisionTree ε}
      {index : Nat} {answer : query.Answer} {choices : List Choice} {walk : Walk ε}
      (hanswer : query.alternatives[index]? = some answer)
      (hrest : Completes (child answer) choices walk) :
      Completes (.ask current query child) (⟨query.alternatives.length, index⟩ :: choices)
        (walk.cons query index answer)
  | fresh {current : Operation} {query : Query} {child : query.Answer → DecisionTree ε}
      {answer : query.Answer} {walk : Walk ε}
      (hanswer : query.alternatives[0]? = some answer)
      (hrest : Completes (child answer) [] walk) :
      Completes (.ask current query child) [] (walk.cons query 0 answer)

/-- One walk is followed by another: the choices recorded after the first complete to the second,
whatever choices were taken before the root of the tree. -/
def Follows (tree : DecisionTree ε) (walk next : Walk ε) : Prop :=
  ∃ choices, choices ≠ [] ∧ tree.Completes choices next ∧
    ∀ earlier, following (earlier ++ walk.choices) = earlier ++ choices

/-- A proper tree has a walk. -/
theorem walks_ne_nil {tree : DecisionTree ε} (h : tree.IsProper) : tree.walks ≠ [] := by
  induction tree with
  | leaf ending => simp [walks]
  | ask current query child ih =>
    obtain ⟨hsome, -, hchild⟩ := h
    obtain ⟨answer, rest, hcons⟩ := List.exists_cons_of_ne_nil hsome
    have hne := ih answer (hchild answer (hcons ▸ List.mem_cons_self))
    rw [walks, hcons, List.mapIdx_cons, List.flatten_cons]
    simp [hne]

/-- The first walk takes the first alternative of every query. -/
theorem completes_of_head? {tree : DecisionTree ε} (h : tree.IsProper) {walk : Walk ε}
    (hw : tree.walks.head? = some walk) : tree.Completes [] walk := by
  induction tree generalizing walk with
  | leaf ending =>
    simp only [walks, List.head?_cons, Option.some.injEq] at hw
    exact hw ▸ .leaf ending
  | ask current query child ih =>
    obtain ⟨hsome, -, hchild⟩ := h
    obtain ⟨answer, rest, hcons⟩ := List.exists_cons_of_ne_nil hsome
    have hproper := hchild answer (hcons ▸ List.mem_cons_self)
    obtain ⟨first, later, hfirst⟩ := List.exists_cons_of_ne_nil (walks_ne_nil hproper)
    rw [walks, hcons, List.mapIdx_cons, List.flatten_cons, hfirst, List.map_cons,
      List.cons_append, List.head?_cons, Option.some.injEq] at hw
    subst hw
    exact .fresh (by rw [hcons, List.getElem?_cons_zero])
      (ih answer hproper (by rw [hfirst, List.head?_cons]))

/-- The last walk leaves nothing to try below the root. -/
theorem following_of_getLast? {tree : DecisionTree ε} (h : tree.IsProper) {walk : Walk ε}
    (hw : tree.walks.getLast? = some walk) (earlier : List Choice) :
    following (earlier ++ walk.choices) = following earlier := by
  induction tree generalizing walk earlier with
  | leaf ending =>
    simp only [walks, List.getLast?_singleton, Option.some.injEq] at hw
    simp [← hw]
  | ask current query child ih =>
    obtain ⟨hsome, -, hchild⟩ := h
    obtain ⟨before, answer, hconcat⟩ := (List.eq_nil_or_concat' query.alternatives).resolve_left hsome
    have hproper := hchild answer (by simp [hconcat])
    obtain ⟨initial, last, hlast⟩ :=
      (List.eq_nil_or_concat' (child answer).walks).resolve_left (walks_ne_nil hproper)
    rw [walks, hconcat, List.mapIdx_concat, List.flatten_append, List.flatten_singleton, hlast,
      List.map_append, List.map_singleton, ← List.append_assoc, List.getLast?_concat,
      Option.some.injEq] at hw
    subst hw
    have hexhausted : ¬ (Choice.mk query.alternatives.length before.length).hasUntried := by
      simp [Choice.hasUntried, hconcat]
    calc following (earlier ++ (last.cons query before.length answer).choices)
        = following ((earlier ++ [⟨query.alternatives.length, before.length⟩]) ++ last.choices) := by
          simp [Walk.cons]
      _ = following (earlier ++ [⟨query.alternatives.length, before.length⟩]) :=
          ih answer hproper (by rw [hlast, List.getLast?_concat]) _
      _ = following earlier := by rw [Odometer.following_concat, if_neg hexhausted]

/-- A walk that goes on in a child is followed by the next walk of that child. -/
theorem Follows.cons {current : Operation} {query : Query} {child : query.Answer → DecisionTree ε}
    {index : Nat} {answer : query.Answer} (hanswer : query.alternatives[index]? = some answer)
    {walk next : Walk ε} (h : (child answer).Follows walk next) :
    (ask current query child).Follows (walk.cons query index answer)
      (next.cons query index answer) := by
  obtain ⟨choices, -, hcompletes, hfollowing⟩ := h
  refine ⟨⟨query.alternatives.length, index⟩ :: choices, List.cons_ne_nil _ _,
    .recorded hanswer hcompletes, fun earlier => ?_⟩
  have hstep := hfollowing (earlier ++ [⟨query.alternatives.length, index⟩])
  simpa only [Walk.cons, List.append_assoc, List.singleton_append] using hstep

/-- The last walk of a child is followed by the first walk of the next child. -/
theorem follows_next_child {current : Operation} {query : Query}
    {child : query.Answer → DecisionTree ε} {index : Nat} {answer other : query.Answer}
    (hother : query.alternatives[index + 1]? = some other)
    (hlast : (child answer).IsProper) (hfirst : (child other).IsProper) {last first : Walk ε}
    (hl : (child answer).walks.getLast? = some last)
    (hf : (child other).walks.head? = some first) :
    (ask current query child).Follows (last.cons query index answer)
      (first.cons query (index + 1) other) := by
  obtain ⟨hlt, -⟩ := List.getElem?_eq_some_iff.mp hother
  have huntried : (Choice.mk query.alternatives.length index).hasUntried := by
    simpa [Choice.hasUntried] using hlt
  refine ⟨[⟨query.alternatives.length, index + 1⟩], List.cons_ne_nil _ _,
    .recorded hother (completes_of_head? hfirst hf), fun earlier => ?_⟩
  calc following (earlier ++ (last.cons query index answer).choices)
      = following ((earlier ++ [⟨query.alternatives.length, index⟩]) ++ last.choices) := by
        simp [Walk.cons]
    _ = following (earlier ++ [⟨query.alternatives.length, index⟩]) :=
        following_of_getLast? hlast hl _
    _ = earlier ++ [⟨query.alternatives.length, index + 1⟩] := by
        rw [Odometer.following_concat, if_pos huntried]

/-- In the list of walks each one is followed by the next. -/
theorem isChain_walks {tree : DecisionTree ε} (h : tree.IsProper) :
    tree.walks.IsChain tree.Follows := by
  induction tree with
  | leaf ending => exact .singleton _
  | ask current query child ih =>
    obtain ⟨-, -, hchild⟩ := h
    have hproper {index : Nat} {answer : query.Answer}
        (ha : query.alternatives[index]? = some answer) : (child answer).IsProper :=
      hchild answer (List.mem_of_getElem? ha)
    rw [walks, List.isChain_flatten]
    · refine ⟨fun block hblock => ?_, ?_⟩
      · obtain ⟨index, hi, rfl⟩ := List.mem_mapIdx.mp hblock
        have hanswer := List.getElem?_eq_getElem hi
        exact (List.isChain_map _).mpr ((ih _ (hproper hanswer)).imp fun _ _ => .cons hanswer)
      · rw [List.isChain_iff_getElem]
        intro index hi last hl first hf
        rw [List.length_mapIdx] at hi
        rw [List.getElem_mapIdx, Option.mem_def, List.getLast?_map, Option.map_eq_some_iff] at hl
        rw [List.getElem_mapIdx, Option.mem_def, List.head?_map, Option.map_eq_some_iff] at hf
        obtain ⟨last, hl, rfl⟩ := hl
        obtain ⟨first, hf, rfl⟩ := hf
        have hanswer := List.getElem?_eq_getElem (Nat.lt_of_succ_lt hi)
        have hother := List.getElem?_eq_getElem hi
        exact follows_next_child hother (hproper hanswer) (hproper hother) hl hf
    · intro hnil
      obtain ⟨index, hi, heq⟩ := List.mem_mapIdx.mp hnil
      exact walks_ne_nil (hproper (List.getElem?_eq_getElem hi)) (List.map_eq_nil_iff.mp heq)

/-- The listed walks are the paths of the tree. -/
theorem mem_walks_iff {tree : DecisionTree ε} {indices : List Nat} {decisions : List Decision}
    {ending : ε} :
    (∃ walk ∈ tree.walks, walk.indices = indices ∧ walk.decisions = decisions ∧
      walk.ending = ending) ↔ tree.Path indices decisions ending := by
  induction tree generalizing indices decisions ending with
  | leaf last =>
    constructor
    · rintro ⟨walk, hwalk, rfl, rfl, rfl⟩
      rw [walks, List.mem_singleton] at hwalk
      exact hwalk ▸ .leaf last
    · intro hpath
      cases hpath with
      | leaf => exact ⟨_, List.mem_singleton_self _, rfl, rfl, rfl⟩
  | ask current query child ih =>
    rw [walks]
    constructor
    · rintro ⟨walk, hwalk, rfl, rfl, rfl⟩
      obtain ⟨block, hblock, hwalk⟩ := List.mem_flatten.mp hwalk
      obtain ⟨index, hi, rfl⟩ := List.mem_mapIdx.mp hblock
      obtain ⟨rest, hrest, rfl⟩ := List.mem_map.mp hwalk
      exact .ask (List.getElem?_eq_getElem hi) ((ih _).mp ⟨rest, hrest, rfl, rfl, rfl⟩)
    · intro hpath
      cases hpath with
      | @ask _ _ _ index answer _ _ _ hanswer hrest =>
        obtain ⟨walk, hwalk, rfl, rfl, rfl⟩ := (ih answer).mpr hrest
        obtain ⟨hi, rfl⟩ := List.getElem?_eq_some_iff.mp hanswer
        exact ⟨walk.cons query index _,
          List.mem_flatten.mpr ⟨_, List.mem_mapIdx.mpr ⟨index, hi, rfl⟩,
            List.mem_map_of_mem hwalk⟩, rfl, rfl, rfl⟩

/-- What holds of the ending of every listed walk holds of the ending of every path. -/
theorem forall_path_iff {tree : DecisionTree ε} {p : ε → Prop} :
    (∀ indices decisions ending, tree.Path indices decisions ending → p ending) ↔
      ∀ walk ∈ tree.walks, p walk.ending := by
  constructor
  · intro h walk hwalk
    exact h _ _ _ (mem_walks_iff.mp ⟨walk, hwalk, rfl, rfl, rfl⟩)
  · intro h indices decisions ending hpath
    obtain ⟨walk, hwalk, -, -, rfl⟩ := mem_walks_iff.mpr hpath
    exact h walk hwalk

/-- A relation between walks holds along the list if it holds between walks that part at a query, the
earlier one through the earlier alternative, and survives a common beginning. -/
theorem pairwise_walks {R : Walk ε → Walk ε → Prop}
    (hcommon : ∀ (query : Query) (index : Nat) (answer : query.Answer) (walk other : Walk ε),
      R walk other → R (walk.cons query index answer) (other.cons query index answer))
    (hparting : ∀ (query : Query) (i j : Nat) (hi : i < query.alternatives.length)
      (hj : j < query.alternatives.length) (walk other : Walk ε), i < j →
      query.alternatives.Nodup →
      R (walk.cons query i query.alternatives[i]) (other.cons query j query.alternatives[j]))
    {tree : DecisionTree ε} (h : tree.IsProper) : tree.walks.Pairwise R := by
  induction tree with
  | leaf ending => exact List.pairwise_singleton _ _
  | ask current query child ih =>
    obtain ⟨-, hnodup, hchild⟩ := h
    rw [walks, List.pairwise_flatten]
    constructor
    · intro block hblock
      obtain ⟨index, hi, rfl⟩ := List.mem_mapIdx.mp hblock
      exact List.pairwise_map.mpr
        ((ih _ (hchild _ (List.getElem_mem hi))).imp fun hR => hcommon _ _ _ _ _ hR)
    · rw [List.pairwise_iff_getElem]
      intro i j hi hj hlt walk hwalk other hother
      rw [List.getElem_mapIdx] at hwalk hother
      obtain ⟨walk, -, rfl⟩ := List.mem_map.mp hwalk
      obtain ⟨other, -, rfl⟩ := List.mem_map.mp hother
      rw [List.length_mapIdx] at hi hj
      exact hparting query i j hi hj walk other hlt hnodup

/-- The walks are listed in lexicographic order. -/
theorem pairwise_lex_walks {tree : DecisionTree ε} (h : tree.IsProper) :
    tree.walks.Pairwise fun walk other => List.Lex (· < ·) walk.indices other.indices :=
  pairwise_walks (fun _ _ _ _ _ hlex => .cons hlex) (fun _ _ _ _ _ _ _ hlt _ => .rel hlt) h

/-- No two listed walks give the same answers. -/
theorem pairwise_ne_walks {tree : DecisionTree ε} (h : tree.IsProper) :
    tree.walks.Pairwise fun walk other => walk.decisions ≠ other.decisions := by
  refine pairwise_walks (fun query _ _ _ _ hne heq => hne (List.cons.inj heq).2) ?_ h
  intro query i j hi hj _ _ hlt hnodup heq
  have hanswer := decision_injective query (List.cons.inj heq).1
  have hindex := (List.Nodup.getElem_inj_iff hnodup).mp hanswer
  omega

end DecisionTree

namespace DepthFirst

instance : Explorer DepthFirst where
  answer _ query s := s.answer query
  atBound s := boundReached s.steps s.maxSteps
  prepare := prepare

/-- The number of decisions until the step bound, if there is one. -/
def remaining (s : DepthFirst) : Option Nat :=
  Clock.remaining ⟨s.steps, s.maxSteps⟩

/-- A query is answered by the alternative at the position that the odometer gives. -/
theorem answer_eq {query : Query} {index : Nat} {answer : query.Answer} {odometer : Odometer}
    {s : DepthFirst} (hanswer : query.alternatives[index]? = some answer)
    (hnext : s.odometer.next query.alternatives.length 0 = (index, odometer)) :
    s.answer query = (some answer, { s with odometer, steps := s.steps + 1 }) := by
  cases query with
  | operation ops =>
    have hlen : ¬ (Operation.enabledIds ops).isEmpty := by
      intro hempty
      simp [Query.alternatives, List.isEmpty_iff.mp hempty] at hanswer
    simp only [Query.alternatives] at hanswer hnext
    simp only [DepthFirst.answer, hlen, choose, hnext, hanswer]
    rfl
  | boolean bound =>
    have hvalue : answer = (index == 0) := by
      rcases index with - | - | index <;> simp_all [Query.alternatives]
    simp only [Query.alternatives, List.length_cons, List.length_nil] at hnext
    simp only [DepthFirst.answer, choose, hnext, hvalue]
  | integer bound =>
    obtain ⟨hlt, rfl⟩ := List.getElem?_eq_some_iff.mp hanswer
    simp only [Query.alternatives, List.length_range] at hnext
    simp only [DepthFirst.answer, choose, hnext, Query.alternatives, List.getElem_range]

/-- The choice at the cursor is taken as it is recorded. -/
theorem next_recorded (passed ahead : List Choice) (options index : Nat) :
    Odometer.next options 0 ⟨passed, ⟨options, index⟩ :: ahead⟩ =
      (index, ⟨⟨options, index⟩ :: passed, ahead⟩) := by
  simp [Odometer.next, Odometer.recorded?]

/-- Where nothing is recorded the first option is taken. -/
theorem next_fresh (passed : List Choice) (options : Nat) :
    Odometer.next options 0 ⟨passed, []⟩ = (0, ⟨⟨options, 0⟩ :: passed, []⟩) := rfl

/-- A walk takes the recorded choices and then first alternatives, and records all of them. -/
theorem walk_eq {tree : DecisionTree ε} {choices : List Choice} {walk : Walk (Option ε)}
    {s : DepthFirst} {passed : List Choice} (hodometer : s.odometer = ⟨passed, choices⟩)
    (h : (tree.truncate s.remaining).Completes choices walk) :
    Explorer.walk tree s =
      (⟨walk.decisions, walk.ending⟩,
        { s with
          odometer := ⟨walk.choices.reverse ++ passed, []⟩
          steps := s.steps + walk.choices.length }) := by
  induction tree generalizing choices walk s passed with
  | leaf ending =>
    cases h with
    | leaf => simp [Explorer.walk, ← hodometer]
  | ask current query child ih =>
    rw [DecisionTree.truncate] at h
    have hatBound : Explorer.atBound s = decide (s.remaining = some 0) := Clock.atBound_eq ⟨s.steps, s.maxSteps⟩
    rw [Explorer.walk, hatBound]
    by_cases hbound : s.remaining = some 0
    · rw [if_pos hbound] at h
      cases h with
      | leaf => simp [hbound, ← hodometer]
    · rw [if_neg hbound] at h
      simp only [hbound, decide_false, Bool.false_eq_true, if_false]
      have hremaining (odometer : Odometer) :
          ({ s with odometer, steps := s.steps + 1 } : DepthFirst).remaining =
            s.remaining.map (· - 1) := Clock.remaining_tick ⟨s.steps, s.maxSteps⟩
      -- Either way the query counts as one step, and the rest of the walk is one of the child.
      cases h with
      | @recorded _ _ _ index answer rest walk hanswer hrest =>
        have hnext := next_recorded passed rest query.alternatives.length index
        rw [← hodometer] at hnext
        simp only [Explorer.answer, answer_eq hanswer hnext]
        rw [ih answer rfl (by rwa [hremaining])]
        simp [Walk.cons, Nat.add_assoc, Nat.add_comm 1]
      | @fresh _ _ _ answer walk hanswer hrest =>
        have hnext := next_fresh passed query.alternatives.length
        rw [← hodometer] at hnext
        simp only [Explorer.answer, answer_eq hanswer hnext]
        rw [ih answer rfl (by rwa [hremaining])]
        simp [Walk.cons, Nat.add_assoc, Nat.add_comm 1]

/-- The state before a walk that has some choices recorded, after a number of walks. -/
def beforeWalk (maxSteps explored : Nat) (choices : List Choice) : DepthFirst :=
  { odometer := ⟨[], choices⟩, maxSteps, explored }

/-- A walk and the preparation for the next one: the walk is the one that completes the recorded
choices, and what is recorded for the next walk follows from it. -/
theorem walk_prepare {tree : DecisionTree ε} {maxSteps : Nat} {choices : List Choice}
    {walk : Walk (Option ε)} (h : (tree.bounded maxSteps).Completes choices walk)
    (explored : Nat) :
    ∃ s, Explorer.walk tree (beforeWalk maxSteps explored choices) =
        (⟨walk.decisions, walk.ending⟩, s) ∧
      Explorer.prepare s =
        (!(following walk.choices).isEmpty,
          beforeWalk maxSteps (explored + 1) (following walk.choices)) := by
  refine ⟨_, walk_eq rfl h, ?_⟩
  simp [Explorer.prepare, prepare, Odometer.truncate, Odometer.advance, Odometer.isEmpty,
    Odometer.toList, beforeWalk, following]

/-- The search takes walks that follow one another, and stops after a walk that leaves nothing to
try; with less fuel than walks it is still under way. -/
theorem explore_eq_of_isChain {tree : DecisionTree ε} {maxSteps : Nat}
    {first : Walk (Option ε)} {later : List (Walk (Option ε))}
    (hchain : (first :: later).IsChain (tree.bounded maxSteps).Follows)
    (hlast : ∀ walk, (first :: later).getLast? = some walk → following walk.choices = [])
    {choices : List Choice} (hfirst : (tree.bounded maxSteps).Completes choices first)
    (explored fuel : Nat) :
    Explorer.explore tree fuel (beforeWalk maxSteps explored choices) =
      if (first :: later).length ≤ fuel then
        some ((first :: later).map fun walk => ⟨walk.decisions, walk.ending⟩,
          beforeWalk maxSteps (explored + (first :: later).length) [])
      else none := by
  induction later generalizing first choices explored fuel with
  | nil =>
    obtain ⟨s, hwalk, hprepare⟩ := walk_prepare hfirst explored
    have hnone := hlast first rfl
    cases fuel with
    | zero => rfl
    | succ fuel =>
      simp only [Explorer.explore, hwalk, hprepare, hnone]
      simp
  | cons second later ih =>
    obtain ⟨⟨next, hne, hsecond, hfollowing⟩, hchain⟩ := List.isChain_cons_cons.mp hchain
    obtain ⟨s, hwalk, hprepare⟩ := walk_prepare hfirst explored
    have hnext : following first.choices = next := by simpa using hfollowing []
    have hmore : (!next.isEmpty) = true := by simp [hne]
    have hrest := ih hchain (fun walk hw => hlast walk (by rwa [List.getLast?_cons_cons])) hsecond
      (explored + 1)
    cases fuel with
    | zero => rfl
    | succ fuel =>
      simp only [Explorer.explore, hwalk, hprepare, hnext, hmore, hrest, List.length_cons,
        Nat.add_le_add_iff_right]
      split
      · simp [Nat.add_assoc, Nat.add_comm 1]
      · rfl

/-- From a walk without recorded choices on, the search takes the listed walks of the tree cut off at
the step bound, in their order. -/
theorem explore_eq_walks {tree : DecisionTree ε} (htree : tree.IsProper)
    (maxSteps explored fuel : Nat) :
    Explorer.explore tree fuel (beforeWalk maxSteps explored []) =
      if (tree.bounded maxSteps).walks.length ≤ fuel then
        some ((tree.bounded maxSteps).walks.map fun walk => ⟨walk.decisions, walk.ending⟩,
          beforeWalk maxSteps (explored + (tree.bounded maxSteps).walks.length) [])
      else none := by
  have hproper : (tree.bounded maxSteps).IsProper := htree.truncate _
  obtain ⟨first, later, hwalks⟩ := List.exists_cons_of_ne_nil (DecisionTree.walks_ne_nil hproper)
  rw [hwalks]
  apply explore_eq_of_isChain (hwalks ▸ DecisionTree.isChain_walks hproper)
  · intro walk hwalk
    exact DecisionTree.following_of_getLast? hproper (hwalks ▸ hwalk) []
  · exact DecisionTree.completes_of_head? hproper (by rw [hwalks, List.head?_cons])

/-- Depth-first search over a decision tree ends, and its walks are the paths of the tree cut off at
the step bound: each path once, no answers twice, in lexicographic order of the positions of the
answers. The search reports the end exactly after the last path and has then counted them all. -/
theorem explore_enumerates_paths (tree : DecisionTree ε) (htree : tree.IsProper) (maxSteps : Nat) :
    ∃ (runs : List (List Nat × Schedule ε)) (final : DepthFirst),
      (∀ fuel, Explorer.explore tree fuel ({ maxSteps } : DepthFirst) =
        if runs.length ≤ fuel then some (runs.map Prod.snd, final) else none) ∧
      (∀ indices schedule, (indices, schedule) ∈ runs ↔
        (tree.bounded maxSteps).Path indices schedule.decisions schedule.ending) ∧
      (runs.map Prod.fst).Pairwise (List.Lex (· < ·)) ∧
      (runs.map fun run => run.2.decisions).Nodup ∧
      final.explored = runs.length := by
  have hproper : (tree.bounded maxSteps).IsProper := htree.truncate _
  obtain ⟨first, later, hwalks⟩ := List.exists_cons_of_ne_nil (DecisionTree.walks_ne_nil hproper)
  have hlast : ∀ walk, (first :: later).getLast? = some walk → following walk.choices = [] := by
    intro walk hwalk
    exact DecisionTree.following_of_getLast? hproper (hwalks ▸ hwalk) []
  have hexplore := explore_eq_of_isChain (hwalks ▸ DecisionTree.isChain_walks hproper) hlast
    (DecisionTree.completes_of_head? hproper (by rw [hwalks, List.head?_cons])) 0
  refine ⟨(first :: later).map fun walk => (walk.indices, ⟨walk.decisions, walk.ending⟩),
    beforeWalk maxSteps (0 + (first :: later).length) [], fun fuel => ?_, ?_, ?_, ?_, ?_⟩
  · rw [List.length_map, List.map_map]
    exact hexplore fuel
  · rintro indices ⟨decisions, ending⟩
    rw [← DecisionTree.mem_walks_iff, hwalks]
    simp only [List.mem_map, Prod.mk.injEq, Schedule.mk.injEq]
  · rw [List.map_map]
    exact List.pairwise_map.mpr (hwalks ▸ DecisionTree.pairwise_lex_walks hproper)
  · rw [List.map_map]
    exact List.pairwise_map.mpr (hwalks ▸ DecisionTree.pairwise_ne_walks hproper)
  · simp [beforeWalk]

/-- A coin, and on heads the choice between two operations. -/
def coinTree : DecisionTree Bool :=
  .ask default (.boolean 2) fun heads =>
    if heads then
      .ask default (.operation [(Operation.new ⟨0⟩ "a").create, (Operation.new ⟨1⟩ "b").create])
        fun _ => .leaf true
    else .leaf false

/-- Two decisions are enough for both sides of the coin and for either operation. -/
theorem explore_enumerates_paths_coinTree :
    coinTree.IsProper ∧
      ∃ (runs : List (List Nat × Schedule Bool)) (final : DepthFirst),
        (∀ fuel, Explorer.explore coinTree fuel ({ maxSteps := 2 } : DepthFirst) =
          if runs.length ≤ fuel then some (runs.map Prod.snd, final) else none) ∧
        (∀ indices schedule, (indices, schedule) ∈ runs ↔
          (coinTree.bounded 2).Path indices schedule.decisions schedule.ending) ∧
        (runs.map Prod.fst).Pairwise (List.Lex (· < ·)) ∧
        (runs.map fun run => run.2.decisions).Nodup ∧
        final.explored = runs.length := by
  have hproper : coinTree.IsProper :=
    ⟨by decide, by decide, fun heads _ => by
      cases heads
      · trivial
      · exact ⟨by decide, by decide, fun _ _ => trivial⟩⟩
  exact ⟨hproper, explore_enumerates_paths coinTree hproper 2⟩

end DepthFirst

end ScheduleExplorer
