import ScheduleExplorer.Proofs.Exploration.Reduction

/-!
# What a partial-order search sees of a tree

`DecisionTree.survey` goes through a tree as the reduction does and keeps, for every schedule, the
trail that leads to its leaf. At a turn the search makes some attempts, each with another operation;
the frame of a later attempt differs from that of an earlier one only in what has been tried since.
-/

namespace ScheduleExplorer

variable {ε : Type}

/-- A schedule, at whose leaf the trail that leads there is kept. -/
abbrev Visit (ε : Type) := Schedule (Option ε × Trail)

/-- The schedule of a visit. -/
def Visit.schedule (visit : Visit ε) : Schedule ε where
  decisions := visit.decisions
  ending := visit.ending.bind Prod.fst

namespace DecisionTree

/-- The visits of the search below a trail. -/
def survey : DecisionTree (Option ε) → Trail → Reduction (Option ε × Trail)
  | .leaf ending, t => ([⟨[], some (ending, t)⟩], t.analyse)
  | .ask current (.operation ops) child, t =>
    match (t.recordSend ops).enter? current.id ops with
    | none => ([⟨[], none⟩], t)
    | some (id, frame) =>
      Reduction.turns (fun id t => ((child id).survey t).cons (.operation id)) ops.length id
        ((t.recordSend ops).push frame)
  | .ask _ (.boolean bound) child, t =>
    let values := (Query.boolean bound).alternatives
    Reduction.values (fun value t => ((child value).survey t).cons (.boolean value)) values.length 0
      values t
  | .ask _ (.integer bound) child, t =>
    let values := (Query.integer bound).alternatives
    Reduction.values (fun value t => ((child value).survey t).cons (.integer value)) values.length 0
      values t

/-- At a node with a value the search goes through every value. -/
theorem survey_value {current : Operation} {query : Query} (h : query.IsValue)
    {child : query.Answer → DecisionTree (Option ε)} (t : Trail) :
    (ask current query child).survey t =
      Reduction.values (fun value t => ((child value).survey t).cons (query.decision value))
        query.alternatives.length 0 query.alternatives t := by
  cases query with
  | operation => exact h.elim
  | boolean => rfl
  | integer => rfl

/-- At a node with a turn the search enters a frame and goes through operations of it. -/
theorem survey_turn {current : Operation} {ops : List Operation}
    {child : OperationId → DecisionTree (Option ε)} {t : Trail} {id : OperationId} {frame : Frame}
    (h : (t.recordSend ops).enter? current.id ops = some (id, frame)) :
    (ask current (.operation ops) child).survey t =
      Reduction.turns (fun id t => ((child id).survey t).cons (.operation id)) ops.length id
        ((t.recordSend ops).push frame) := by
  rw [survey, h]

end DecisionTree

/-! ### The schedules of the visits -/

/-- The schedules of visits, and the trail after them. -/
def Reduction.schedules (visits : Reduction (Option ε × Trail)) : Reduction ε :=
  (visits.1.map Visit.schedule, visits.2)

namespace Reduction

/-- The schedules below a decision are those of the visits below it. -/
theorem schedules_cons (decision : Decision) (visits : Reduction (Option ε × Trail)) :
    (visits.cons decision).schedules = visits.schedules.cons decision := by
  simp only [schedules, cons, List.map_map]
  rfl

/-- The schedules of the values are those of the visits. -/
theorem schedules_values {α : Type} (visit : α → Trail → Reduction (Option ε × Trail))
    (options index : Nat) (rest : List α) (t : Trail) :
    (values visit options index rest t).schedules =
      values (fun value t => (visit value t).schedules) options index rest t := by
  induction rest generalizing index t with
  | nil => rfl
  | cons value rest ih =>
    simp only [values, ← ih]
    simp only [schedules, List.map_append]

/-- The schedules of the operations of a turn are those of the visits. -/
theorem schedules_turns (visit : OperationId → Trail → Reduction (Option ε × Trail)) (count : Nat)
    (id : OperationId) (t : Trail) :
    (turns visit count id t).schedules = turns (fun id t => (visit id t).schedules) count id t := by
  induction count generalizing id t with
  | zero => rfl
  | succ count ih =>
    simp only [turns, ← ih]
    simp only [schedules]
    split
    · rfl
    · split
      · rfl
      · rw [List.map_append]

end Reduction

/-- The reduction goes through the schedules of the survey. -/
theorem DecisionTree.schedules_survey (tree : DecisionTree (Option ε)) (t : Trail) :
    (tree.survey t).schedules = tree.reduce t := by
  induction tree generalizing t with
  | leaf ending => rfl
  | ask current query child ih =>
    have hvisit (value : query.Answer) (t : Trail) :
        (((child value).survey t).cons (query.decision value)).schedules =
          ((child value).reduce t).cons (query.decision value) := by
      rw [Reduction.schedules_cons, ih]
    cases query with
    | operation ops =>
      cases henter : (t.recordSend ops).enter? current.id ops with
      | none => simp only [survey, reduce, henter, Reduction.schedules, List.map_singleton,
          Visit.schedule, Option.bind_none]
      | some entered =>
        rw [survey_turn henter, reduce_turn henter, Reduction.schedules_turns]
        congr 1
        funext id t
        exact hvisit id t
    | boolean bound =>
      rw [survey, reduce, Reduction.schedules_values]
      congr 1
      funext value t
      exact hvisit value t
    | integer bound =>
      rw [survey, reduce, Reduction.schedules_values]
      congr 1
      funext value t
      exact hvisit value t

/-- The trail grows while the search goes through a part of a tree. -/
theorem DecisionTree.grows_survey (tree : DecisionTree (Option ε)) (t : Trail) :
    t.Grows (tree.survey t).2 := by
  have hgrows := tree.grows_reduce t
  rw [← tree.schedules_survey t] at hgrows
  exact hgrows

/-! ### Attempts -/

/-- An operation that is tried at a turn, with the frame of the turn and the trail above it at that
time. -/
structure Attempt where
  id : OperationId
  frame : Frame
  above : Trail

/-- The trail on which an attempt begins. -/
def Attempt.trail (attempt : Attempt) : Trail :=
  attempt.above.push attempt.frame

namespace Reduction

variable {α : Type} {visit : OperationId → Trail → Reduction ε}

/-- The attempts at a turn, for at most a number of operations. -/
def attempts (visit : OperationId → Trail → Reduction ε) :
    Nat → OperationId → Frame → Trail → List Attempt
  | 0, _, _, _ => []
  | count + 1, id, frame, above =>
    ⟨id, frame, above⟩ ::
      match (visit id (above.push frame)).2.frames with
      | [] => []
      | grown :: earlier =>
        match grown.close.unexplored.first? with
        | none => []
        | some next =>
          attempts visit count next (grown.close.select next)
            { (visit id (above.push frame)).2 with frames := earlier }

/-- At a turn the search goes through its attempts. -/
theorem fst_turns (visit : OperationId → Trail → Reduction ε) (count : Nat) (id : OperationId)
    (frame : Frame) (above : Trail) :
    (turns visit count id (above.push frame)).1 =
      (attempts visit count id frame above).flatMap fun attempt =>
        (visit attempt.id attempt.trail).1 := by
  induction count generalizing id frame above with
  | zero => rfl
  | succ count ih =>
    cases hframes : (visit id (above.push frame)).2.frames with
    | nil => simp [turns, attempts, hframes, Attempt.trail]
    | cons grown earlier =>
      cases hfirst : grown.close.unexplored.first? with
      | none => simp [turns, attempts, hframes, hfirst, Attempt.trail]
      | some next =>
        have hlater := ih next (grown.close.select next)
          { (visit id (above.push frame)).2 with frames := earlier }
        simp only [turns, attempts, hframes, hfirst, List.flatMap_cons]
        exact congrArg _ hlater

/-- The values that are chosen at a node, each with the trail on which the search goes on. -/
def chosen (visit : α → Trail → Reduction ε) (options : Nat) :
    Nat → List α → Trail → List (α × Trail)
  | _, [], _ => []
  | index, value :: rest, t =>
    (value, t.choose ⟨options, index⟩) ::
      chosen visit options (index + 1) rest (visit value (t.choose ⟨options, index⟩)).2.unchoose

/-- At a node with a value the search goes through the chosen values. -/
theorem fst_values (visit : α → Trail → Reduction ε) (options index : Nat) (rest : List α)
    (t : Trail) :
    (values visit options index rest t).1 =
      (chosen visit options index rest t).flatMap fun choice => (visit choice.1 choice.2).1 := by
  induction rest generalizing index t with
  | nil => rfl
  | cons value rest ih =>
    rw [values, chosen, List.flatMap_cons]
    exact congrArg _ (ih (index + 1) _)

/-- Every value is chosen once, in order. -/
theorem map_fst_chosen (visit : α → Trail → Reduction ε) (options index : Nat) (rest : List α)
    (t : Trail) : (chosen visit options index rest t).map Prod.fst = rest := by
  induction rest generalizing index t with
  | nil => rfl
  | cons value rest ih => rw [chosen, List.map_cons, ih]

/-- The values are chosen below the trail, which grows. -/
theorem grows_chosen {visit : α → Trail → Reduction ε}
    (hvisit : ∀ value (t : Trail), t.Grows (visit value t).2) (options index : Nat) (rest : List α)
    (t : Trail) : ∀ choice ∈ chosen visit options index rest t, ∃ grown index, t.Grows grown ∧
      choice.2 = grown.choose ⟨options, index⟩ := by
  induction rest generalizing index t with
  | nil => exact List.forall_mem_nil _
  | cons value rest ih =>
    have hback := (hvisit value (t.choose ⟨options, index⟩)).of_choose.1
    refine List.forall_mem_cons.mpr ⟨⟨t, index, .refl t, rfl⟩, fun choice hchoice => ?_⟩
    obtain ⟨grown, later, hgrown, hchosen⟩ := ih (index + 1) _ choice hchoice
    exact ⟨grown, later, hback.trans hgrown, hchosen⟩

/-- The first attempt at a turn, and then the others from the next operation on if there is one. -/
theorem attempts_eq (count : Nat) {id : OperationId} {frame : Frame} {t : Trail}
    (hgrows : (t.push frame).Grows (visit id (t.push frame)).2) :
    ∃ matchingSend grown above, { frame with matchingSend }.Grows grown ∧ t.Settles above ∧
      (grown.close.unexplored.first? = none →
        attempts visit (count + 1) id frame t = [⟨id, frame, t⟩]) ∧
      ∀ next, grown.close.unexplored.first? = some next →
        attempts visit (count + 1) id frame t =
          ⟨id, frame, t⟩ :: attempts visit count next (grown.close.select next) above := by
  obtain ⟨matchingSend, grown, above, hgrown, hsettles, heq⟩ := hgrows.of_push
  have hframes : (visit id (t.push frame)).2.frames = grown :: above.frames := by
    rw [heq]
    rfl
  have hinitial : (visit id (t.push frame)).2.initial = above.initial := by
    rw [heq]
    rfl
  refine ⟨matchingSend, grown, above, hgrown, hsettles, fun hnone => ?_, fun next hnext => ?_⟩
  · simp only [attempts, hframes, hnone]
  · simp only [attempts, hframes, hinitial, hnext]

end Reduction

/-- The frame of a turn at a later time: only more has been tried. -/
structure Frame.Revisits (frame later : Frame) : Prop where
  enabled : later.enabled = frame.enabled
  sleep : later.sleep = frame.sleep
  pending : later.pending = frame.pending
  done : ∀ id, frame.done.contains id = true → later.done.contains id = true

/-- A frame is the frame of its turn. -/
theorem Frame.Revisits.refl (frame : Frame) : frame.Revisits frame :=
  ⟨rfl, rfl, rfl, fun _ => id⟩

/-- A frame at a later time than a later one is a later one. -/
theorem Frame.Revisits.trans {frame between later : Frame} (h : frame.Revisits between)
    (h' : between.Revisits later) : frame.Revisits later :=
  ⟨h'.enabled.trans h.enabled, h'.sleep.trans h.sleep, h'.pending.trans h.pending,
    fun id hid => h'.done id (h.done id hid)⟩

/-- After an operation has been tried, the frame is the one of the same turn, and the operation counts
as tried. -/
theorem Frame.Revisits.next {frame grown : Frame} {matchingSend : Option Nat}
    (hgrown : { frame with matchingSend }.Grows grown) {id : OperationId}
    (hselected : frame.selected = some id) (next : OperationId) :
    frame.Revisits (grown.close.select next) ∧
      (grown.close.select next).done.contains id = true := by
  obtain ⟨backtrack, rfl, -⟩ := hgrown
  have hdone : (({ frame with matchingSend, backtrack } : Frame).close.select next).done =
      frame.done.insert id := by
    rw [select, close]
    simp only [hselected]
  refine ⟨⟨rfl, rfl, rfl, fun other hother => ?_⟩, ?_⟩
  · rw [hdone, OpSet.contains_insert, hother, Bool.true_or]
  · rw [hdone, OpSet.contains_insert, decide_eq_true rfl, Bool.or_true]

namespace Attempt

/-- An attempt at a turn. -/
structure IsAt (ops : List Operation) (frame : Frame) (t : Trail) (attempt : Attempt) : Prop where
  settles : t.Settles attempt.above
  revisits : frame.Revisits attempt.frame
  isOpen : ∃ count, attempt.frame.IsOpen ops attempt.id count
  /-- A sleeping operation is tried only where all enabled ones sleep. -/
  awake : frame.awake.isEmpty = false → frame.sleep.contains attempt.id = false

end Attempt

namespace Reduction

variable {visit : OperationId → Trail → Reduction ε} {ops : List Operation}

/-- What the search goes through at a turn are attempts at it, and each of them counts as tried in
the later ones. -/
theorem attempts_spec (hvisit : ∀ id (t : Trail), t.Grows (visit id t).2) {id : OperationId}
    {count : Nat} {frame : Frame} (hopen : frame.IsOpen ops id count) (t : Trail)
    (hawake : frame.awake.isEmpty = false → frame.sleep.contains id = false) :
    (∀ attempt ∈ attempts visit count id frame t, attempt.IsAt ops frame t) ∧
      (attempts visit count id frame t).Pairwise fun attempt later =>
        later.frame.done.contains attempt.id = true := by
  induction count generalizing id frame t with
  | zero => exact absurd hopen.pos (Nat.lt_irrefl 0)
  | succ count ih =>
    have hfirst : Attempt.IsAt ops frame t ⟨id, frame, t⟩ :=
      ⟨⟨grows_refl _, rfl⟩, .refl frame, ⟨_, hopen⟩, hawake⟩
    obtain ⟨send, grown, above, hgrown, hsettles, hnone, hsome⟩ :=
      attempts_eq count (hvisit id (t.push frame))
    cases hnext : grown.close.unexplored.first? with
    | none =>
      rw [hnone hnext]
      exact ⟨List.forall_mem_singleton.mpr hfirst, List.pairwise_singleton _ _⟩
    | some next =>
      obtain ⟨hrevisits, hdone⟩ := Frame.Revisits.next hgrown hopen.selected next
      have hfree : (grown.close.select next).sleep.contains next = false := by
        have hmem := OpSet.contains_of_first? hnext
        rw [Frame.unexplored, OpSet.contains_difference, Bool.and_eq_true, Bool.not_eq_true']
          at hmem
        exact hmem.2
      obtain ⟨hlater, htried⟩ := ih (hopen.next hgrown hnext) above fun _ => hfree
      have hall : ∀ attempt ∈ attempts visit count next (grown.close.select next) above,
          attempt.IsAt ops frame t ∧ attempt.frame.done.contains id = true := by
        intro attempt hattempt
        obtain ⟨habove, hagain, hopens, hsleeps⟩ := hlater attempt hattempt
        refine ⟨⟨hsettles.trans habove, hrevisits.trans hagain, hopens, fun hsome => ?_⟩,
          hagain.done id hdone⟩
        rw [← hrevisits.sleep]
        apply hsleeps
        rw [Frame.awake, hrevisits.enabled, hrevisits.sleep]
        exact hsome
      rw [hsome next hnext]
      exact ⟨List.forall_mem_cons.mpr ⟨hfirst, fun attempt hattempt => (hall attempt hattempt).1⟩,
        List.pairwise_cons.mpr ⟨fun attempt hattempt => (hall attempt hattempt).2, htried⟩⟩

/-- The first attempt at a turn is made. -/
theorem mem_attempts (visit : OperationId → Trail → Reduction ε) {count : Nat} (hcount : 0 < count)
    (id : OperationId) (frame : Frame) (above : Trail) :
    ⟨id, frame, above⟩ ∈ attempts visit count id frame above := by
  cases count with
  | zero => exact absurd hcount (Nat.lt_irrefl 0)
  | succ count => exact List.mem_cons_self

end Reduction

/-! ### What the search goes through at a node -/

/-- An operation is tried first at a turn only if it is awake, or if all enabled ones sleep. -/
theorem Trail.awake_of_enter? {current id : OperationId} {ops : List Operation} {t : Trail}
    {frame : Frame} (h : t.enter? current ops = some (id, frame))
    (hawake : frame.awake.isEmpty = false) : frame.sleep.contains id = false := by
  rw [enter?, Option.map_eq_some_iff] at h
  obtain ⟨found, hfirst, heq⟩ := h
  obtain ⟨rfl, rfl⟩ := Prod.mk.inj heq
  have hfree : (t.capture ops).awake.isEmpty = false := hawake
  rw [first?, hfree] at hfirst
  have hmem : found ∈ (t.capture ops).awake.toList := by
    cases hfind : (t.capture ops).awake.toList.find? fun id => current.index ≤ id.index with
    | some other =>
      simp only [Bool.false_eq_true, if_false, hfind, Option.orElse_some, Option.some.injEq] at hfirst
      exact hfirst ▸ List.mem_of_find?_eq_some hfind
    | none =>
      simp only [Bool.false_eq_true, if_false, hfind, Option.orElse_none] at hfirst
      exact List.mem_of_head? hfirst
  rw [OpSet.mem_toList, Frame.awake, OpSet.contains_difference, Bool.and_eq_true,
    Bool.not_eq_true'] at hmem
  exact hmem.2

namespace DecisionTree

/-- The attempts of the search at a node with a turn. -/
theorem exists_attempts (current : Operation) {ops : List Operation}
    (child : OperationId → DecisionTree (Option ε)) (hsome : Operation.enabledIds ops ≠ [])
    (t : Trail) :
    ∃ attempts : List Attempt, attempts ≠ [] ∧
      ((ask current (.operation ops) child).survey t).1 = attempts.flatMap (fun attempt =>
        ((child attempt.id).survey attempt.trail).1.map (Schedule.cons (.operation attempt.id))) ∧
      (∀ attempt ∈ attempts,
        attempt.IsAt ops ((t.recordSend ops).capture ops) (t.recordSend ops)) ∧
      attempts.Pairwise fun attempt later => later.frame.done.contains attempt.id = true := by
  obtain ⟨id, frame, henter⟩ := Trail.exists_enter? hsome current.id (t.recordSend ops)
  have hopen := Trail.isOpen_enter henter
  have hawake := Trail.awake_of_enter? henter
  have hrevisits : ((t.recordSend ops).capture ops).Revisits frame := by
    rw [Trail.enter?, Option.map_eq_some_iff] at henter
    obtain ⟨found, -, heq⟩ := henter
    obtain ⟨rfl, rfl⟩ := Prod.mk.inj heq
    exact ⟨rfl, rfl, rfl, fun _ hdone => hdone⟩
  have hvisit (id : OperationId) (t : Trail) :
      t.Grows (((child id).survey t).cons (.operation id)).2 := (child id).grows_survey t
  obtain ⟨hattempts, htried⟩ :=
    Reduction.attempts_spec hvisit hopen (t.recordSend ops) hawake
  refine ⟨_, ?_, ?_, fun attempt hattempt => ?_, htried⟩
  · exact List.ne_nil_of_mem (Reduction.mem_attempts _ hopen.pos id frame (t.recordSend ops))
  · rw [survey_turn henter, Reduction.fst_turns]
    rfl
  · obtain ⟨hsettles, hagain, hopens, hsleeps⟩ := hattempts attempt hattempt
    refine ⟨hsettles, hrevisits.trans hagain, hopens, fun hfree => ?_⟩
    rw [Frame.awake, ← hrevisits.enabled, ← hrevisits.sleep] at hfree
    rw [← hrevisits.sleep]
    exact hsleeps hfree

/-- The choices of the search at a node with a value: every value is chosen, each below the trail
grown so far. -/
theorem exists_choices {query : Query} (hquery : query.IsValue) (current : Operation)
    (child : query.Answer → DecisionTree (Option ε)) (t : Trail) :
    ∃ choices : List (query.Answer × Trail), choices.map Prod.fst = query.alternatives ∧
      ((ask current query child).survey t).1 = choices.flatMap (fun choice =>
        ((child choice.1).survey choice.2).1.map (Schedule.cons (query.decision choice.1))) ∧
      ∀ choice ∈ choices, ∃ grown index, t.Grows grown ∧
        choice.2 = grown.choose ⟨query.alternatives.length, index⟩ := by
  have hvisit (value : query.Answer) (t : Trail) :
      t.Grows (((child value).survey t).cons (query.decision value)).2 :=
    (child value).grows_survey t
  refine ⟨_, Reduction.map_fst_chosen (fun value t => ((child value).survey t).cons
    (query.decision value)) query.alternatives.length 0 query.alternatives t, ?_, ?_⟩
  · rw [survey_value hquery, Reduction.fst_values]
    rfl
  · exact Reduction.grows_chosen hvisit _ 0 _ t

/-- The visits below a node fall into blocks, one for each answer that is given there; every value is
given. -/
theorem exists_blocks {current : Operation} {query : Query}
    {child : query.Answer → DecisionTree (Option ε)} (h : (ask current query child).IsProper)
    (t : Trail) :
    ∃ blocks : List (query.Answer × Trail), blocks ≠ [] ∧
      ((ask current query child).survey t).1 = blocks.flatMap (fun block =>
        ((child block.1).survey block.2).1.map (Schedule.cons (query.decision block.1))) ∧
      (blocks.map Prod.fst).Nodup ∧ (∀ block ∈ blocks, block.1 ∈ query.alternatives) ∧
      (query.IsValue → blocks.map Prod.fst = query.alternatives) := by
  obtain ⟨hsome, hnodup, -⟩ := h
  by_cases hquery : query.IsValue
  · obtain ⟨choices, hall, hsurvey, -⟩ := exists_choices hquery current child t
    refine ⟨choices, ?_, hsurvey, hall ▸ hnodup, fun choice hchoice => ?_, fun _ => hall⟩
    · rintro rfl
      exact hsome hall.symm
    · exact hall ▸ List.mem_map_of_mem hchoice
  · cases query with
    | operation ops =>
      obtain ⟨attempts, hne, hsurvey, hattempts, htried⟩ :=
        exists_attempts current child hsome t
      refine ⟨attempts.map fun attempt => (attempt.id, attempt.trail), ?_, ?_, ?_, ?_,
        fun hvalue => absurd hvalue hquery⟩
      · exact fun hnil => hne (List.map_eq_nil_iff.mp hnil)
      · rw [hsurvey, List.flatMap_map]
        rfl
      · rw [List.map_map]
        refine List.pairwise_map.mpr (htried.imp_of_mem
          fun {attempt later} _ hlater hdone heq => ?_)
        obtain ⟨count, hopen⟩ := (hattempts later hlater).isOpen
        have hsame : attempt.id = later.id := heq
        rw [hsame] at hdone
        cases hopen.untried.symm.trans hdone
      · intro block hblock
        obtain ⟨attempt, hattempt, rfl⟩ := List.mem_map.mp hblock
        obtain ⟨count, hopen⟩ := (hattempts _ hattempt).isOpen
        exact hopen.mem
    | boolean => exact absurd trivial hquery
    | integer => exact absurd trivial hquery

/-- There is a visit below every node. -/
theorem survey_ne_nil {tree : DecisionTree (Option ε)} (h : tree.IsProper) (t : Trail) :
    (tree.survey t).1 ≠ [] := by
  induction tree generalizing t with
  | leaf ending => exact List.cons_ne_nil _ _
  | ask current query child ih =>
    obtain ⟨blocks, hne, hsurvey, -, hmem, -⟩ := exists_blocks h t
    obtain ⟨block, rest, rfl⟩ := List.exists_cons_of_ne_nil hne
    have hblock := hmem block List.mem_cons_self
    have hbelow := ih block.1 (h.2.2 _ hblock) block.2
    rw [hsurvey, List.flatMap_cons]
    simp [hbelow]

end DecisionTree

end ScheduleExplorer
