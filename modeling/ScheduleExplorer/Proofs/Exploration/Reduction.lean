import ScheduleExplorer.Proofs.Exploration.DecisionTree
import ScheduleExplorer.Proofs.Exploration.Trail

/-!
# Partial-order reduction by recursion

A partial-order search goes through a decision tree. At a node with a value it goes through every
value. At a node with a turn it goes through the subtree of one operation, and then through those of
the operations that the races of the paths seen so far have put into the backtrack set, as long as
one is left that has not been tried and does not sleep. `DecisionTree.reduce` says this by recursion
on the tree; the trail carries the frames of the turns above the node, whose backtrack sets grow.
-/

namespace ScheduleExplorer

variable {ε : Type}

/-- A schedule that begins with a decision. -/
def Schedule.cons (decision : Decision) (schedule : Schedule ε) : Schedule ε :=
  { schedule with decisions := decision :: schedule.decisions }

/-- The schedules of a part of a tree, and the trail to it after their analysis. -/
abbrev Reduction (ε : Type) := List (Schedule ε) × Trail

namespace Reduction

/-- The schedules below a decision. -/
def cons (decision : Decision) (reduction : Reduction ε) : Reduction ε :=
  (reduction.1.map (Schedule.cons decision), reduction.2)

/-- Goes through the values from a position on. -/
def values {α : Type} (visit : α → Trail → Reduction ε) (options : Nat) :
    Nat → List α → Trail → Reduction ε
  | _, [], t => ([], t)
  | index, value :: rest, t =>
    let (now, t) := visit value (t.choose ⟨options, index⟩)
    let (later, t) := values visit options (index + 1) rest t.unchoose
    (now ++ later, t)

/-- Goes through an operation of the last frame and those that are still to be tried after it, for
at most a number of operations. -/
def turns (visit : OperationId → Trail → Reduction ε) :
    Nat → OperationId → Trail → Reduction ε
  | 0, _, t => ([], t)
  | count + 1, id, t =>
    let (now, t) := visit id t
    match t.frames with
    | [] => (now, t)
    | frame :: earlier =>
      match frame.close.unexplored.first? with
      | none => (now, { t with frames := earlier })
      | some next =>
        let (later, t) := turns visit count next
          { t with frames := frame.close.select next :: earlier }
        (now ++ later, t)

end Reduction

namespace DecisionTree

/-- The schedules that the search goes through below a trail. -/
def reduce : DecisionTree (Option ε) → Trail → Reduction ε
  | .leaf ending, t => ([⟨[], ending⟩], t.analyse)
  | .ask current (.operation ops) child, t =>
    match (t.recordSend ops).enter? current.id ops with
    | none => ([⟨[], none⟩], t)
    | some (id, frame) =>
      Reduction.turns (fun id t => ((child id).reduce t).cons (.operation id)) ops.length id
        ((t.recordSend ops).push frame)
  | .ask _ (.boolean bound) child, t =>
    let values := (Query.boolean bound).alternatives
    Reduction.values (fun value t => ((child value).reduce t).cons (.boolean value)) values.length 0
      values t
  | .ask _ (.integer bound) child, t =>
    let values := (Query.integer bound).alternatives
    Reduction.values (fun value t => ((child value).reduce t).cons (.integer value)) values.length 0
      values t

end DecisionTree

/-! ### What the search leaves behind -/

namespace Reduction

/-- Going through one operation of an open frame, and then through the next one if there is one. -/
theorem turns_eq (visit : OperationId → Trail → Reduction ε) {id : OperationId} {count : Nat}
    {frame : Frame} {t : Trail}
    (hgrows : (t.push frame).Grows (visit id (t.push frame)).2) :
    ∃ matchingSend grown above, { frame with matchingSend }.Grows grown ∧ t.Settles above ∧
      (visit id (t.push frame)).2 = above.push grown ∧
      (grown.close.unexplored.first? = none →
        turns visit (count + 1) id (t.push frame) = ((visit id (t.push frame)).1, above)) ∧
      ∀ next, grown.close.unexplored.first? = some next →
        turns visit (count + 1) id (t.push frame) =
          let later := turns visit count next (above.push (grown.close.select next))
          ((visit id (t.push frame)).1 ++ later.1, later.2) := by
  obtain ⟨matchingSend, grown, above, hgrown, hsettles, heq⟩ := hgrows.of_push
  have hframes : (visit id (t.push frame)).2.frames = grown :: above.frames := by
    rw [heq]
    rfl
  have hinitial : (visit id (t.push frame)).2.initial = above.initial := by
    rw [heq]
    rfl
  refine ⟨matchingSend, grown, above, hgrown, hsettles, heq, fun hnone => ?_, fun next hnext => ?_⟩
  · simp only [turns, hframes, hinitial, hnone]
  · simp only [turns, hframes, hinitial, hnext]
    rfl

/-- The values are gone through below the trail, which grows. -/
theorem grows_values {α : Type} {visit : α → Trail → Reduction ε}
    (hvisit : ∀ value (t : Trail), t.Grows (visit value t).2) (options index : Nat) (rest : List α)
    (t : Trail) : t.Grows (values visit options index rest t).2 := by
  induction rest generalizing index t with
  | nil => exact .refl t
  | cons value rest ih =>
    have hback := (hvisit value (t.choose ⟨options, index⟩)).of_choose.1
    exact hback.trans (ih (index + 1) _)

/-- The operations of an open frame are gone through below the trail, whose frames grow. -/
theorem settles_turns {visit : OperationId → Trail → Reduction ε}
    (hvisit : ∀ id (t : Trail), t.Grows (visit id t).2) {ops : List Operation} {id : OperationId}
    {count : Nat} {frame : Frame} (hopen : frame.IsOpen ops id count) (t : Trail) :
    t.Settles (turns visit count id (t.push frame)).2 := by
  induction count generalizing id frame t with
  | zero => exact absurd hopen.pos (Nat.lt_irrefl 0)
  | succ count ih =>
    obtain ⟨send, grown, above, hgrown, hsettles, -, hnone, hsome⟩ :=
      turns_eq visit (hvisit id (t.push frame))
    cases hnext : grown.close.unexplored.first? with
    | none =>
      rw [hnone hnext]
      exact hsettles
    | some next =>
      rw [hsome next hnext]
      exact hsettles.trans (ih (hopen.next hgrown hnext) above)

/-- A schedule that is gone through begins with one of the values. -/
theorem exists_of_mem_values {α : Type} {visit : α → Trail → Reduction ε}
    {options index : Nat} {rest : List α} {t : Trail} {schedule : Schedule ε}
    (h : schedule ∈ (values visit options index rest t).1) :
    ∃ value ∈ rest, ∃ below, schedule ∈ (visit value below).1 := by
  induction rest generalizing index t with
  | nil => exact absurd h List.not_mem_nil
  | cons value rest ih =>
    rw [values] at h
    rcases List.mem_append.mp h with hnow | hlater
    · exact ⟨value, List.mem_cons_self, _, hnow⟩
    · obtain ⟨other, hother, hmem⟩ := ih hlater
      exact ⟨other, List.mem_cons_of_mem value hother, hmem⟩

/-- A schedule that is gone through begins with an enabled operation. -/
theorem exists_of_mem_turns {visit : OperationId → Trail → Reduction ε}
    (hvisit : ∀ id (t : Trail), t.Grows (visit id t).2) {ops : List Operation} {id : OperationId}
    {count : Nat} {frame : Frame} (hopen : frame.IsOpen ops id count) {t : Trail}
    {schedule : Schedule ε} (h : schedule ∈ (turns visit count id (t.push frame)).1) :
    ∃ other ∈ Operation.enabledIds ops, ∃ below, schedule ∈ (visit other below).1 := by
  induction count generalizing id frame t with
  | zero => exact absurd hopen.pos (Nat.lt_irrefl 0)
  | succ count ih =>
    obtain ⟨send, grown, above, hgrown, hsettles, -, hnone, hsome⟩ :=
      turns_eq visit (hvisit id (t.push frame))
    cases hnext : grown.close.unexplored.first? with
    | none =>
      rw [hnone hnext] at h
      exact ⟨id, hopen.mem, _, h⟩
    | some next =>
      rw [hsome next hnext] at h
      rcases List.mem_append.mp h with hnow | hlater
      · exact ⟨id, hopen.mem, _, hnow⟩
      · exact ih (hopen.next hgrown hnext) hlater

end Reduction

namespace DecisionTree

/-- At a node with a turn the search enters a frame and goes through operations of it. -/
theorem reduce_turn {current : Operation} {ops : List Operation}
    {child : OperationId → DecisionTree (Option ε)} {t : Trail} {id : OperationId} {frame : Frame}
    (h : (t.recordSend ops).enter? current.id ops = some (id, frame)) :
    (ask current (.operation ops) child).reduce t =
      Reduction.turns (fun id t => ((child id).reduce t).cons (.operation id)) ops.length id
        ((t.recordSend ops).push frame) := by
  rw [reduce, h]

/-- The trail grows while the search goes through a part of a tree. -/
theorem grows_reduce (tree : DecisionTree (Option ε)) (t : Trail) : t.Grows (tree.reduce t).2 := by
  induction tree generalizing t with
  | leaf ending => exact Trail.grows_analyse t
  | ask current query child ih =>
    have hvisit (value : query.Answer) (t : Trail) :
        t.Grows (((child value).reduce t).cons (query.decision value)).2 := ih value t
    cases query with
    | operation ops =>
      cases henter : (t.recordSend ops).enter? current.id ops with
      | none =>
        rw [reduce, henter]
        exact .refl t
      | some entered =>
        obtain ⟨id, frame⟩ := entered
        rw [reduce_turn henter]
        have hsettles := Reduction.settles_turns hvisit (Trail.isOpen_enter henter)
          (t.recordSend ops)
        exact (t.grows_recordSend ops).trans hsettles.grows
    | boolean bound => exact Reduction.grows_values hvisit _ _ _ t
    | integer bound => exact Reduction.grows_values hvisit _ _ _ t

/-- Every schedule that the search goes through is a path of the tree. -/
theorem exists_path_of_mem_reduce {tree : DecisionTree (Option ε)} (htree : tree.IsProper)
    {t : Trail} {schedule : Schedule ε} (h : schedule ∈ (tree.reduce t).1) :
    ∃ indices, tree.Path indices schedule.decisions schedule.ending := by
  induction tree generalizing t schedule with
  | leaf ending =>
    obtain rfl := List.mem_singleton.mp h
    exact ⟨[], .leaf ending⟩
  | ask current query child ih =>
    obtain ⟨hsome, -, hchild⟩ := htree
    have hvisit (value : query.Answer) (t : Trail) :
        t.Grows (((child value).reduce t).cons (query.decision value)).2 :=
      (child value).grows_reduce t
    suffices hbelow : ∃ value ∈ query.alternatives, ∃ below,
        schedule ∈ (((child value).reduce below).cons (query.decision value)).1 by
      obtain ⟨value, hvalue, below, hmem⟩ := hbelow
      obtain ⟨rest, hrest, rfl⟩ := List.mem_map.mp hmem
      obtain ⟨indices, hpath⟩ := ih value (hchild value hvalue) hrest
      obtain ⟨index, hindex⟩ := List.mem_iff_getElem?.mp hvalue
      exact ⟨index :: indices, .ask hindex hpath⟩
    cases query with
    | operation ops =>
      obtain ⟨id, frame, henter⟩ := Trail.exists_enter? hsome current.id (t.recordSend ops)
      rw [reduce_turn henter] at h
      exact Reduction.exists_of_mem_turns hvisit (Trail.isOpen_enter henter) h
    | boolean bound => exact Reduction.exists_of_mem_values h
    | integer bound => exact Reduction.exists_of_mem_values h

end DecisionTree

end ScheduleExplorer
