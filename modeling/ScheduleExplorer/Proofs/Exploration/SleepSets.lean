import ScheduleExplorer.Proofs.Exploration.Exhaustion
import ScheduleExplorer.Proofs.Exploration.Labels

/-!
# Sleep sets exclude redundant schedules

Two schedules of a search part at a value or at a turn. At a value the labels differ in what the
operation drew. At a turn the operation of the earlier schedule has been tried when the later one goes
on with another operation, so if the two steps are independent, it sleeps from then on. It sleeps as
long as only independent steps follow, and a path that is awake does not select it meanwhile: so its
label cannot start what the later schedule does from the turn on.
-/

namespace ScheduleExplorer

variable {ε γ : Type}

/-! ### Frames that stand -/

/-- A frame while the search goes through what is below it: only what races have called for, the send
received from and the values drawn may differ. -/
def Frame.Stands (frame later : Frame) : Prop :=
  ∃ backtrack matchingSend choices, later = { frame with backtrack, matchingSend, choices }

namespace Frame

/-- A frame stands. -/
theorem Stands.refl (frame : Frame) : frame.Stands frame :=
  ⟨frame.backtrack, frame.matchingSend, frame.choices, rfl⟩

/-- A frame that stands after one that stands is one that stands. -/
theorem Stands.trans {frame between later : Frame} (h : frame.Stands between)
    (h' : between.Stands later) : frame.Stands later := by
  obtain ⟨_, _, _, rfl⟩ := h
  obtain ⟨backtrack, matchingSend, choices, rfl⟩ := h'
  exact ⟨backtrack, matchingSend, choices, rfl⟩

/-- A frame that grows stands. -/
theorem Grows.stands {frame grown : Frame} (h : frame.Grows grown) : frame.Stands grown := by
  obtain ⟨backtrack, rfl, -⟩ := h
  exact ⟨backtrack, frame.matchingSend, frame.choices, rfl⟩

/-- An operation that slept or has been tried sleeps in the next frame if its step is independent of
the selected one. -/
theorem contains_inheritedSleep {frame : Frame} {id selected : OperationId}
    {step other : PendingStep} (hselected : frame.selected = some selected)
    (hother : frame.pendingOf? selected = some other) (hstep : frame.pendingOf? id = some step)
    (hne : id ≠ selected) (hfree : step.isDependent other = false)
    (hmem : frame.sleep.contains id = true ∨ frame.done.contains id = true) :
    frame.inheritedSleep.contains id = true := by
  have hcandidate : ((frame.sleep.union frame.done).erase selected).contains id = true := by
    rw [OpSet.contains_erase, OpSet.contains_union, Bool.and_eq_true, Bool.or_eq_true]
    exact ⟨hmem, decide_eq_true hne.symm⟩
  have hselectedStep : frame.selectedStep? = some (selected, other) := by
    rw [selectedStep?, hselected]
    simp [hother]
  rw [inheritedSleep, hselectedStep, OpSet.contains_ofList, List.mem_filter, OpSet.mem_toList, hstep]
  refine ⟨hcandidate, ?_⟩
  dsimp only
  rw [hfree]
  rfl

end Frame

namespace Trail

/-- The operations that sleep below a trail. -/
def sleeping (t : Trail) : OpSet :=
  (t.frames.head?.map Frame.inheritedSleep).getD {}

/-- The frames of a trail stand in a later one. -/
def Stands (t later : Trail) : Prop :=
  t.frames.Forall₂ Frame.Stands later.frames

/-- Frames that grow stand. -/
theorem stands_of_grows {frames grown : List Frame} (h : frames.Forall₂ Frame.Grows grown) :
    frames.Forall₂ Frame.Stands grown :=
  h.imp fun _ _ hgrows => hgrows.stands

/-- Frames that stand after frames that stand are frames that stand. -/
theorem stands_trans {frames between later : List Frame} (h : frames.Forall₂ Frame.Stands between)
    (h' : between.Forall₂ Frame.Stands later) : frames.Forall₂ Frame.Stands later := by
  induction h generalizing later with
  | nil => exact h'
  | cons hfirst _ ih =>
    cases h' with
    | cons hsecond hrest => exact .cons (hfirst.trans hsecond) (ih hrest)

/-- The frames of a trail that grows stand. -/
theorem Grows.stands {t grown : Trail} (h : t.Grows grown) : t.Stands grown := by
  cases h with
  | empty => exact .nil
  | @frame frame grown _ _ send hlast hearlier =>
    have hsent : frame.Stands { frame with matchingSend := send } :=
      ⟨frame.backtrack, send, frame.choices, rfl⟩
    exact .cons (hsent.trans hlast.stands) (stands_of_grows hearlier)

/-- The frames of a trail stand when a value is chosen. -/
theorem stands_choose (choice : Choice) (t : Trail) : t.Stands (t.choose choice) := by
  obtain ⟨frames, initial⟩ := t
  cases frames with
  | nil => exact .nil
  | cons frame earlier =>
    exact .cons ⟨frame.backtrack, frame.matchingSend, _, rfl⟩
      (List.forall₂_same.mpr fun other _ => .refl other)

/-- The frames of a trail stand when it grows and then a value is chosen. -/
theorem stands_of_chosen {t later : Trail} {options : Nat}
    (h : ∃ grown index, t.Grows grown ∧ later = grown.choose ⟨options, index⟩) : t.Stands later := by
  obtain ⟨grown, index, hgrown, rfl⟩ := h
  exact stands_trans hgrown.stands (grown.stands_choose ⟨options, index⟩)

/-- The same operations sleep below a trail whose frames stand. -/
theorem Stands.sleeping_eq {t later : Trail} (h : t.Stands later) : later.sleeping = t.sleeping := by
  obtain ⟨frames, initial⟩ := t
  obtain ⟨frames', initial'⟩ := later
  cases h with
  | nil => rfl
  | cons hlast =>
    obtain ⟨backtrack, matchingSend, choices, rfl⟩ := hlast
    rfl

end Trail

/-! ### Values that are drawn -/

namespace Decision

variable {query : Query}

/-- A value that is drawn first belongs to the values drawn before the first turn. -/
theorem values_cons (hquery : query.IsValue) (value : query.Answer) (decisions : List Decision) :
    values (query.decision value :: decisions) = query.decision value :: values decisions := by
  cases query with
  | operation => exact hquery.elim
  | boolean => rfl
  | integer => rfl

/-- A value that is drawn first belongs to no turn. -/
theorem turns_cons (hquery : query.IsValue) (value : query.Answer) (decisions : List Decision) :
    turns (query.decision value :: decisions) = turns decisions := by
  cases query with
  | operation => exact hquery.elim
  | boolean => rfl
  | integer => rfl

end Decision

/-! ### The path of a visit -/

namespace Visit

/-- The frames of the path of a visit, last first. -/
def path (visit : Visit ε) : List Frame :=
  (visit.ending.map fun ending => ending.2.frames).getD []

/-- The frames of the path of a visit below a depth. -/
def below (depth : Nat) (visit : Visit ε) : List Frame :=
  visit.path.reverse.drop depth

/-- The labels of a visit below a depth. -/
def labels (depth : Nat) (visit : Visit ε) : List Label :=
  Label.ofPath visit.decisions (visit.below depth)

/-- In no frame of a visit below a depth every enabled operation sleeps. -/
def IsAwake (depth : Nat) (visit : Visit ε) : Prop :=
  ∀ frame ∈ visit.below depth, frame.awake.isEmpty = false

instance (depth : Nat) (visit : Visit ε) : Decidable (visit.IsAwake depth) :=
  inferInstanceAs (Decidable (∀ frame ∈ visit.below depth, frame.awake.isEmpty = false))

/-- Two visits that are awake below a depth and draw the same values first are not equivalent. -/
def IsApart (depth : Nat) (visit later : Visit ε) : Prop :=
  visit.IsAwake depth → later.IsAwake depth →
    Decision.values visit.decisions = Decision.values later.decisions →
      ¬ Label.Equivalent (visit.labels depth) (later.labels depth)

end Visit

/-- How a visit below a node with a query comes about: from a visit below a value, or from a visit
below an attempt at a turn. -/
inductive Visit.Enters (t : Trail) :
    (query : Query) → (query.Answer → DecisionTree (Option ε)) → Visit ε → Prop where
  | value {query : Query} {child : query.Answer → DecisionTree (Option ε)} {value : query.Answer}
      {chosen : Trail} {rest : Visit ε} (hquery : query.IsValue) (hvalue : value ∈ query.alternatives)
      (hstands : t.Stands chosen) (hrest : rest ∈ ((child value).survey chosen).1) :
      Enters t query child (rest.cons (query.decision value))
  | turn {ops : List Operation} {child : OperationId → DecisionTree (Option ε)} {attempt : Attempt}
      {rest : Visit ε} (hmem : attempt.id ∈ Operation.enabledIds ops)
      (hat : attempt.IsAt ops ((t.recordSend ops).capture ops) (t.recordSend ops))
      (hrest : rest ∈ ((child attempt.id).survey attempt.trail).1) :
      Enters t (.operation ops) child (rest.cons (.operation attempt.id))

namespace DecisionTree

/-- Every visit below a node enters it. -/
theorem enters_of_mem_survey {current : Operation} {query : Query}
    {child : query.Answer → DecisionTree (Option ε)} (hsome : query.alternatives ≠ []) {t : Trail}
    {visit : Visit ε} (h : visit ∈ ((ask current query child).survey t).1) :
    Visit.Enters t query child visit := by
  by_cases hquery : query.IsValue
  · obtain ⟨choices, hall, hsurvey, hchosen⟩ := exists_choices hquery current child t
    rw [hsurvey] at h
    obtain ⟨choice, hchoice, h⟩ := List.mem_flatMap.mp h
    obtain ⟨rest, hrest, rfl⟩ := List.mem_map.mp h
    exact .value hquery (hall ▸ List.mem_map_of_mem hchoice)
      (Trail.stands_of_chosen (hchosen choice hchoice)) hrest
  · cases query with
    | operation ops =>
      obtain ⟨attempts, -, hsurvey, hattempts, -⟩ := exists_attempts current child hsome t
      rw [hsurvey] at h
      obtain ⟨attempt, hattempt, h⟩ := List.mem_flatMap.mp h
      obtain ⟨rest, hrest, rfl⟩ := List.mem_map.mp h
      have hat := hattempts attempt hattempt
      obtain ⟨count, hopen⟩ := hat.isOpen
      exact .turn hopen.mem hat hrest
    | boolean => exact absurd trivial hquery
    | integer => exact absurd trivial hquery

/-- At the end of a visit the frames of the trail on which it began stand, and those that have come
after them are the frames of its turns. -/
theorem path_of_mem_survey {tree : DecisionTree (Option ε)} (htree : tree.IsProper) {t : Trail}
    {visit : Visit ε} (h : visit ∈ (tree.survey t).1) :
    ∃ later kept, visit.path = later ++ kept ∧ t.frames.Forall₂ Frame.Stands kept ∧
      later.reverse.map Frame.selected =
        (Decision.turns visit.decisions).map fun turn => some turn.1 := by
  induction tree generalizing t visit with
  | leaf ending =>
    obtain rfl := List.mem_singleton.mp h
    exact ⟨[], t.frames, rfl, List.forall₂_same.mpr fun frame _ => .refl frame, rfl⟩
  | ask current query child ih =>
    obtain ⟨hsome, -, hchild⟩ := htree
    cases enters_of_mem_survey hsome h with
    | @value _ _ value chosen rest hquery hvalue hstands hrest =>
      obtain ⟨later, kept, hpath, hkept, hturns⟩ := ih value (hchild _ hvalue) hrest
      exact ⟨later, kept, hpath, Trail.stands_trans hstands hkept,
        hturns.trans (congrArg (List.map _) (Decision.turns_cons hquery _ rest.decisions).symm)⟩
    | @turn ops _ attempt rest hmem hat hrest =>
      obtain ⟨count, hopen⟩ := hat.isOpen
      obtain ⟨later, kept, hpath, hkept, hturns⟩ := ih attempt.id (hchild _ hmem) hrest
      cases hkept with
      | @cons _ last _ earlier hlast hearlier =>
        refine ⟨later ++ [last], earlier, ?_, ?_, ?_⟩
        · rw [List.append_assoc]
          exact hpath
        · have hgrown := (t.grows_recordSend ops).trans hat.settles.grows
          exact Trail.stands_trans hgrown.stands hearlier
        · obtain ⟨_, _, _, rfl⟩ := hlast
          rw [List.reverse_append, List.reverse_singleton, List.map_append, hturns]
          exact congrArg (· :: _) hopen.selected

/-- Below a trail the path of a visit has the frame of the turn, and then what is below the turn. -/
theorem below_of_mem_survey {tree : DecisionTree (Option ε)} (htree : tree.IsProper)
    {above : Trail} {frame : Frame} {visit : Visit ε}
    (h : visit ∈ (tree.survey (above.push frame)).1) :
    ∃ last, frame.Stands last ∧
      visit.below above.frames.length = last :: visit.below (above.frames.length + 1) := by
  obtain ⟨later, kept, hpath, hkept, -⟩ := path_of_mem_survey htree h
  cases hkept with
  | @cons _ last _ earlier hlast hearlier =>
    have hnow : visit.below above.frames.length = last :: later.reverse := by
      rw [Visit.below, hpath, List.reverse_append, List.reverse_cons, List.append_assoc,
        List.singleton_append, hearlier.length_eq]
      exact List.drop_left' List.length_reverse
    have hnext : visit.below (above.frames.length + 1) = (visit.below above.frames.length).drop 1 := by
      rw [Visit.below, Visit.below, List.drop_drop]
    rw [hnext, hnow]
    exact ⟨last, hlast, rfl⟩

end DecisionTree

/-! ### Announced steps -/

namespace Query

/-- The step that an operation has announced at a turn. -/
def step? (id : OperationId) : Query → Option PendingStep
  | .operation ops => (Frame.capture ops).pendingOf? id
  | _ => none

end Query

namespace DecisionTree

/-- An operation announces a step at every turn until it is scheduled. -/
def Announces (id : OperationId) (step : PendingStep) : DecisionTree ε → Prop
  | .leaf _ => True
  | .ask _ query child =>
    (query.IsValue ∨ query.step? id = some step) ∧
      ∀ value ∈ query.alternatives, query.decision value ≠ .operation id →
        (child value).Announces id step

/-- A step that an operation has announced at a turn is announced until the operation is scheduled. -/
def KeepsSteps : DecisionTree ε → Prop
  | .leaf _ => True
  | .ask _ query child =>
    ∀ value ∈ query.alternatives, (child value).KeepsSteps ∧
      ∀ id step, query.step? id = some step → query.decision value ≠ .operation id →
        (child value).Announces id step

/-! ### Turns of a survey -/

section Turn

variable {ops : List Operation} {t : Trail} {attempt : Attempt} {tree : DecisionTree (Option ε)}
  {visit : Visit ε}

/-- An attempt at a turn is made as far down as the turn is. -/
theorem length_above
    (hat : attempt.IsAt ops ((t.recordSend ops).capture ops) (t.recordSend ops)) :
    t.frames.length = attempt.above.frames.length :=
  (t.grows_recordSend ops).stands.length_eq.trans hat.settles.frames.length_eq

/-- An attempt goes on one turn further down. -/
theorem length_trail
    (hat : attempt.IsAt ops ((t.recordSend ops).capture ops) (t.recordSend ops)) :
    attempt.trail.frames.length = t.frames.length + 1 :=
  congrArg Nat.succ (length_above hat).symm

/-- The steps that are announced at a turn. -/
theorem pendingOf?_of_turn
    (hat : attempt.IsAt ops ((t.recordSend ops).capture ops) (t.recordSend ops)) (id : OperationId) :
    attempt.frame.pendingOf? id = (Frame.capture ops).pendingOf? id := by
  rw [Frame.pendingOf?, hat.revisits.pending]
  rfl

/-- What sleeps at a turn. -/
theorem sleep_of_turn
    (hat : attempt.IsAt ops ((t.recordSend ops).capture ops) (t.recordSend ops)) :
    attempt.frame.sleep = t.sleeping :=
  hat.revisits.sleep.trans (t.grows_recordSend ops).stands.sleeping_eq

/-- The label of a turn says what was announced there, and the labels below it follow. -/
theorem labels_of_turn
    (hat : attempt.IsAt ops ((t.recordSend ops).capture ops) (t.recordSend ops))
    (htree : tree.IsProper) (h : visit ∈ (tree.survey attempt.trail).1) :
    Visit.labels t.frames.length (visit.cons (.operation attempt.id)) =
      ⟨attempt.id, (Frame.capture ops).pendingOf? attempt.id, Decision.values visit.decisions⟩ ::
        visit.labels (t.frames.length + 1) := by
  obtain ⟨last, ⟨_, _, _, rfl⟩, hbelow⟩ := below_of_mem_survey htree h
  rw [← length_above hat] at hbelow
  have hlabels : Visit.labels t.frames.length (visit.cons (.operation attempt.id)) =
      Label.ofPath (.operation attempt.id :: visit.decisions) (visit.below t.frames.length) := rfl
  rw [hlabels, hbelow, ← pendingOf?_of_turn hat]
  rfl

/-- An operation that sleeps at a turn is not selected there on a path that is awake, and below the
turn the path is awake too. -/
theorem isAwake_of_turn
    (hat : attempt.IsAt ops ((t.recordSend ops).capture ops) (t.recordSend ops))
    (htree : tree.IsProper) (h : visit ∈ (tree.survey attempt.trail).1)
    (hawake : Visit.IsAwake t.frames.length (visit.cons (.operation attempt.id))) :
    t.sleeping.contains attempt.id = false ∧ visit.IsAwake (t.frames.length + 1) := by
  obtain ⟨last, ⟨_, _, _, rfl⟩, hbelow⟩ := below_of_mem_survey htree h
  rw [← length_above hat] at hbelow
  have hall : ∀ frame ∈ visit.below t.frames.length, frame.awake.isEmpty = false := hawake
  rw [hbelow, List.forall_mem_cons] at hall
  obtain ⟨hlast, hlater⟩ := hall
  have hfree : ((t.recordSend ops).capture ops).awake.isEmpty = false := by
    rw [Frame.awake, ← hat.revisits.enabled, ← hat.revisits.sleep]
    exact hlast
  have hslept := hat.awake hfree
  rw [← hat.revisits.sleep, sleep_of_turn hat] at hslept
  exact ⟨hslept, hlater⟩

/-- An operation that sleeps at a turn or has been tried there sleeps below it if its step is
independent of that of the selected operation. -/
theorem sleeping_of_turn
    (hat : attempt.IsAt ops ((t.recordSend ops).capture ops) (t.recordSend ops))
    {id : OperationId} {step other : PendingStep}
    (hmem : t.sleeping.contains id = true ∨ attempt.frame.done.contains id = true)
    (hstep : (Frame.capture ops).pendingOf? id = some step)
    (hother : (Frame.capture ops).pendingOf? attempt.id = some other) (hne : id ≠ attempt.id)
    (hfree : step.isDependent other = false) : attempt.trail.sleeping.contains id = true := by
  obtain ⟨count, hopen⟩ := hat.isOpen
  rw [← sleep_of_turn hat] at hmem
  rw [← pendingOf?_of_turn hat] at hstep hother
  exact Frame.contains_inheritedSleep hopen.selected hother hstep hne hfree hmem

end Turn

/-- A value that is drawn makes no label of its own. -/
theorem labels_of_value {query : Query} (hquery : query.IsValue) (value : query.Answer) (depth : Nat)
    (visit : Visit ε) :
    Visit.labels depth (visit.cons (query.decision value)) = visit.labels depth := by
  have hturns := Decision.turns_cons hquery value visit.decisions
  exact congrArg (List.zipWith _ · (visit.below depth)) hturns

/-- A sleeping operation cannot start what an awake path does below the trail. -/
theorem not_canStart_of_sleeping {tree : DecisionTree (Option ε)} (htree : tree.IsProper) {t : Trail}
    {label : Label} {step : PendingStep} (hstep : label.step = some step)
    (hsleeping : t.sleeping.contains label.op = true) (hannounces : tree.Announces label.op step)
    {visit : Visit ε} (h : visit ∈ (tree.survey t).1) (hawake : visit.IsAwake t.frames.length) :
    ¬ label.CanStart (visit.labels t.frames.length) := by
  induction tree generalizing t visit with
  | leaf ending =>
    obtain rfl := List.mem_singleton.mp h
    exact id
  | ask current query child ih =>
    obtain ⟨hsome, -, hchild⟩ := htree
    obtain ⟨hannounced, hbelow⟩ := hannounces
    cases enters_of_mem_survey hsome h with
    | @value _ _ value chosen rest hquery hvalue hstands hrest =>
      have hasks : query.decision value ≠ .operation label.op := by
        cases query with
        | operation => exact hquery.elim
        | _ => exact Decision.noConfusion
      rw [labels_of_value hquery, hstands.length_eq]
      rw [hstands.length_eq] at hawake
      rw [← hstands.sleeping_eq] at hsleeping
      exact ih value (hchild _ hvalue) hsleeping (hbelow _ hvalue hasks) hrest hawake
    | @turn ops _ attempt rest hmem hat hrest =>
      obtain ⟨hslept, hlater⟩ := isAwake_of_turn hat (hchild _ hmem) hrest hawake
      rw [labels_of_turn hat (hchild _ hmem) hrest]
      have hne : label.op ≠ attempt.id := by
        intro heq
        rw [heq] at hsleeping
        cases hsleeping.symm.trans hslept
      have hpending : (Frame.capture ops).pendingOf? label.op = some step :=
        hannounced.resolve_left id
      rintro (rfl | ⟨⟨-, own, hown, other, hother, hfree⟩, hstart⟩)
      · exact hne rfl
      · obtain rfl := Option.some.inj (hstep.symm.trans hown)
        have hdeeper := sleeping_of_turn hat (.inl hsleeping) hpending hother hne hfree
        have hturn : Decision.operation attempt.id ≠ .operation label.op :=
          fun heq => hne (Decision.operation.inj heq).symm
        rw [← length_trail hat] at hlater hstart
        exact ih attempt.id (hchild _ hmem) hdeeper (hbelow _ hmem hturn) hrest hlater hstart

/-! ### Visits apart -/

/-- Visits below a value are apart above it. -/
theorem isApart_of_value {query : Query} (hquery : query.IsValue) (value : query.Answer) {depth : Nat}
    {visit later : Visit ε} (h : visit.IsApart depth later) :
    Visit.IsApart depth (visit.cons (query.decision value)) (later.cons (query.decision value)) := by
  intro hawake hawake' hsame hequivalent
  rw [labels_of_value hquery, labels_of_value hquery] at hequivalent
  have hvalues := (Decision.values_cons hquery value visit.decisions).symm.trans
    (hsame.trans (Decision.values_cons hquery value later.decisions))
  exact h hawake hawake' (List.cons.inj hvalues).2 hequivalent

/-- Visits of different values are apart. -/
theorem isApart_of_values {query : Query} (hquery : query.IsValue) {value other : query.Answer}
    (hne : value ≠ other) (depth : Nat) (visit later : Visit ε) :
    Visit.IsApart depth (visit.cons (query.decision value)) (later.cons (query.decision other)) := by
  intro _ _ hsame
  have hvalues := (Decision.values_cons hquery value visit.decisions).symm.trans
    (hsame.trans (Decision.values_cons hquery other later.decisions))
  exact absurd (decision_injective query (List.cons.inj hvalues).1) hne

/-- Visits below an attempt are apart above it. -/
theorem isApart_of_attempt {ops : List Operation} {t : Trail} {attempt : Attempt}
    {tree : DecisionTree (Option ε)} (htree : tree.IsProper)
    (hat : attempt.IsAt ops ((t.recordSend ops).capture ops) (t.recordSend ops))
    {visit later : Visit ε} (hvisit : visit ∈ (tree.survey attempt.trail).1)
    (hlater : later ∈ (tree.survey attempt.trail).1)
    (h : visit.IsApart attempt.trail.frames.length later) :
    Visit.IsApart t.frames.length (visit.cons (.operation attempt.id))
      (later.cons (.operation attempt.id)) := by
  intro hawake hawake' _ hequivalent
  rw [length_trail hat] at h
  rw [labels_of_turn hat htree hvisit, labels_of_turn hat htree hlater] at hequivalent
  obtain ⟨-, hbelow⟩ := isAwake_of_turn hat htree hvisit hawake
  obtain ⟨-, hbelow'⟩ := isAwake_of_turn hat htree hlater hawake'
  rcases hequivalent.canStart_cons with heq | ⟨⟨hne, -⟩, -⟩
  · rw [heq] at hequivalent
    exact h hbelow hbelow' (Label.mk.inj heq).2.2 hequivalent.of_cons
  · exact hne rfl

/-- Visits of different attempts at a turn are apart. -/
theorem isApart_of_attempts {ops : List Operation} {t : Trail} {first second : Attempt}
    {child : OperationId → DecisionTree (Option ε)}
    (hchild : ∀ id ∈ Operation.enabledIds ops, (child id).IsProper)
    (hfirst : first.IsAt ops ((t.recordSend ops).capture ops) (t.recordSend ops))
    (hsecond : second.IsAt ops ((t.recordSend ops).capture ops) (t.recordSend ops))
    (hdone : second.frame.done.contains first.id = true)
    (hkeeps : ∀ step, (Frame.capture ops).pendingOf? first.id = some step → second.id ≠ first.id →
      (child second.id).Announces first.id step)
    {visit later : Visit ε} (hvisit : visit ∈ ((child first.id).survey first.trail).1)
    (hlater : later ∈ ((child second.id).survey second.trail).1) :
    Visit.IsApart t.frames.length (visit.cons (.operation first.id))
      (later.cons (.operation second.id)) := by
  intro _ hawake _ hequivalent
  obtain ⟨count, hopen⟩ := hfirst.isOpen
  obtain ⟨count', hopen'⟩ := hsecond.isOpen
  have hne : first.id ≠ second.id := by
    intro heq
    rw [heq] at hdone
    cases hopen'.untried.symm.trans hdone
  rw [labels_of_turn hfirst (hchild _ hopen.mem) hvisit,
    labels_of_turn hsecond (hchild _ hopen'.mem) hlater] at hequivalent
  obtain ⟨-, hawake⟩ := isAwake_of_turn hsecond (hchild _ hopen'.mem) hlater hawake
  rcases hequivalent.canStart_cons with heq | ⟨⟨-, step, hstep, other, hother, hfree⟩, hstart⟩
  · exact hne (Label.mk.inj heq).1
  · have hsleeping := sleeping_of_turn hsecond (.inr hdone) hstep hother hne hfree
    rw [← length_trail hsecond] at hawake hstart
    exact not_canStart_of_sleeping (hchild _ hopen'.mem) hstep hsleeping (hkeeps step hstep hne.symm)
      hlater hawake hstart

/-- Visits that are awake and draw the same values first are not equivalent. -/
theorem pairwise_survey {tree : DecisionTree (Option ε)} (htree : tree.IsProper)
    (hkeeps : tree.KeepsSteps) (t : Trail) :
    (tree.survey t).1.Pairwise (Visit.IsApart t.frames.length) := by
  induction tree generalizing t with
  | leaf ending => exact List.pairwise_singleton _ _
  | ask current query child ih =>
    obtain ⟨hsome, hnodup, hchild⟩ := htree
    by_cases hquery : query.IsValue
    · obtain ⟨choices, hall, hsurvey, hchosen⟩ := exists_choices hquery current child t
      rw [hsurvey, List.pairwise_flatMap]
      constructor
      · intro choice hchoice
        have hvalue : choice.1 ∈ query.alternatives := hall ▸ List.mem_map_of_mem hchoice
        have hstands := Trail.stands_of_chosen (hchosen choice hchoice)
        rw [List.pairwise_map, hstands.length_eq]
        exact (ih choice.1 (hchild _ hvalue) (hkeeps _ hvalue).1 choice.2).imp
          (isApart_of_value hquery choice.1)
      · rw [← hall] at hnodup
        refine (List.pairwise_map.mp hnodup).imp fun hne visit hvisit later hlater => ?_
        obtain ⟨visit, -, rfl⟩ := List.mem_map.mp hvisit
        obtain ⟨later, -, rfl⟩ := List.mem_map.mp hlater
        exact isApart_of_values hquery hne _ visit later
    · cases query with
      | operation ops =>
        obtain ⟨attempts, -, hsurvey, hattempts, htried⟩ := exists_attempts current child hsome t
        rw [hsurvey, List.pairwise_flatMap]
        constructor
        · intro attempt hattempt
          have hat := hattempts attempt hattempt
          obtain ⟨count, hopen⟩ := hat.isOpen
          have hproper := hchild _ hopen.mem
          rw [List.pairwise_map]
          exact (ih attempt.id hproper (hkeeps _ hopen.mem).1 attempt.trail).imp_of_mem
            (isApart_of_attempt hproper hat)
        · refine htried.imp_of_mem fun {first second} hfirst hsecond hdone visit hvisit later hlater => ?_
          obtain ⟨visit, hbelow, rfl⟩ := List.mem_map.mp hvisit
          obtain ⟨later, hbelow', rfl⟩ := List.mem_map.mp hlater
          have hat := hattempts second hsecond
          obtain ⟨count, hopen⟩ := hat.isOpen
          refine isApart_of_attempts hchild (hattempts first hfirst) hat hdone
            (fun step hstep hne => ?_) hbelow hbelow'
          exact (hkeeps _ hopen.mem).2 first.id step hstep fun heq => hne (Decision.operation.inj heq)
      | boolean => exact absurd trivial hquery
      | integer => exact absurd trivial hquery

end DecisionTree

namespace Behaviour

variable {b : Behaviour ε}

/-- From one turn to the next the announced step changes only for the operation that is scheduled. -/
def KeepsSteps (b : Behaviour ε) : Prop :=
  ∀ (past values : List Decision) (now later : Operation) (ops next : List Operation)
    (other id : OperationId) (step : PendingStep), b.Reaches (past ++ .operation other :: values) →
      (∀ value ∈ values, value.operation? = none) → b.next past = .asked now (.operation ops) →
        b.next (past ++ .operation other :: values) = .asked later (.operation next) → id ≠ other →
          (Frame.capture ops).pendingOf? id = some step →
            (Frame.capture next).pendingOf? id = some step

/-- What an operation has announced at a turn is announced below it. -/
theorem announces_cut (hkeeps : b.KeepsSteps) {left : Nat} {past values : List Decision}
    {now : Operation} {ops : List Operation} {other id : OperationId} {step : PendingStep}
    (hreach : b.Reaches (past ++ .operation other :: values))
    (hvalues : ∀ value ∈ values, value.operation? = none)
    (hnow : b.next past = .asked now (.operation ops)) (hne : id ≠ other)
    (hstep : (Frame.capture ops).pendingOf? id = some step) :
    (b.cut left (past ++ .operation other :: values)).Announces id step := by
  induction left generalizing past values now ops other with
  | zero =>
    rw [cut]
    split <;> trivial
  | succ left ih =>
    cases hnext : b.next (past ++ .operation other :: values) with
    | ended ending =>
      rw [cut_ended hnext]
      trivial
    | asked later query =>
      rw [cut_asked hnext]
      cases query with
      | operation next =>
        have hlater := hkeeps past values now later ops next other id step hreach hvalues hnow hnext hne
          hstep
        refine ⟨.inr hlater, fun third hthird hturn => ?_⟩
        exact ih (hreach.answer hnext hthird) (List.forall_mem_nil _) hnext
          (fun heq => hturn (congrArg Decision.operation heq.symm)) hlater
      | _ =>
        refine ⟨.inl trivial, fun value hvalue _ => ?_⟩
        have hdeeper := hreach.answer hnext hvalue
        dsimp only
        rw [List.append_assoc, List.cons_append] at hdeeper ⊢
        refine ih hdeeper (List.forall_mem_append.mpr ⟨hvalues, ?_⟩) hnow hne hstep
        exact List.forall_mem_singleton.mpr rfl

/-- The part of the decision tree that a search sees keeps announced steps. -/
theorem keepsSteps_cut (hkeeps : b.KeepsSteps) {left : Nat} {past : List Decision}
    (hreach : b.Reaches past) : (b.cut left past).KeepsSteps := by
  induction left generalizing past with
  | zero =>
    rw [cut]
    split <;> trivial
  | succ left ih =>
    cases hnext : b.next past with
    | ended ending =>
      rw [cut_ended hnext]
      trivial
    | asked current query =>
      rw [cut_asked hnext]
      intro value hvalue
      have hdeeper := hreach.answer hnext hvalue
      refine ⟨ih hdeeper, fun id step hstep hturn => ?_⟩
      cases query with
      | operation ops =>
        exact announces_cut hkeeps hdeeper (List.forall_mem_nil _) hnext
          (fun heq => hturn (congrArg Decision.operation heq.symm)) hstep
      | boolean => cases hstep
      | integer => cases hstep

end Behaviour

/-! ### Rounds -/

namespace Round

/-- The labels of an iteration. -/
def labels (round : Round (Dpor γ) ε) : List Label :=
  Label.ofPath round.schedule.decisions round.after.frames

/-- At no depth of an iteration every enabled operation sleeps. -/
def IsAwake (round : Round (Dpor γ) ε) : Prop :=
  ∀ frame ∈ round.after.frames, frame.awake.isEmpty = false

/-- The decisions of an iteration, and the frames of its path. -/
def taken (round : Round (Dpor γ) ε) : List Decision × List Frame :=
  (round.schedule.decisions, round.after.frames)

end Round

/-- The decisions of a visit, and the frames of its path, first one first. -/
def Visit.taken (visit : Visit ε) : List Decision × List Frame :=
  (visit.decisions, visit.below 0)

/-- Rounds that show visits below the root take the same decisions and paths. -/
theorem Dpor.map_taken_of_shows [RandomSource γ] {maxSteps : Nat} {root : DecisionTree (Option ε)}
    {rounds : List (Round (Dpor γ) ε)} {visits : List (Visit ε)}
    (h : rounds.Forall₂ (Shows γ maxSteps root []) visits) :
    rounds.map Round.taken = visits.map Visit.taken := by
  induction h with
  | nil => rfl
  | cons hshow _ ih =>
    obtain ⟨ending, t, stats, steps, hending, hpassed, hafter⟩ := hshow.after
    rw [List.map_cons, List.map_cons, ih, Round.taken, hshow.schedule, hafter, placed_nil hpassed]
    simp [Visit.taken, Visit.below, Visit.path, hending, frames, Visit.schedule, Schedule.after]

namespace Behaviour

variable {b : Behaviour ε}

/-- A depth below which a search with a step bound does not come in some rounds: the step bound if
there is one. -/
theorem exists_depth {σ : Type} (maxSteps : Nat) (rounds : List (Round σ ε)) :
    ∃ depth, (maxSteps ≠ 0 → depth = maxSteps) ∧
      (maxSteps = 0 → ∀ round ∈ rounds, round.schedule.decisions.length < depth) := by
  by_cases hzero : maxSteps = 0
  · obtain ⟨longest, hlongest⟩ :=
      (rounds.map fun round => round.schedule.decisions.length).finite_toSet.bddAbove
    refine ⟨longest + 1, fun hne => absurd hzero hne, fun _ round hround => Nat.lt_succ_of_le ?_⟩
    exact hlongest (List.mem_map.mpr ⟨round, hround, rfl⟩)
  · exact ⟨maxSteps, fun _ => rfl, fun hnone => absurd hnone hzero⟩

section Search

variable [RandomSource γ] {maxSteps : Nat} {rounds : List (Round (Dpor γ) ε)}
  {result : Bool × Dpor γ}

/-- The iterations of a search are the first visits of a part of the decision tree. -/
theorem exists_taken (hrounds : Explorer.Rounds (b.Walks []) ({ maxSteps } : Dpor γ) rounds result) :
    ∃ depth, rounds.map Round.taken <+: ((b.cut depth []).survey {}).1.map Visit.taken := by
  obtain ⟨depth, hbound, hshort⟩ := exists_depth maxSteps rounds
  have hclock : ∀ round ∈ rounds, Dpor.clock round.before = ⟨0, maxSteps⟩ := by
    refine hrounds.forall_before (P := fun s => s.clock = ⟨0, maxSteps⟩)
      (fun {s schedule after} hs hwalk => ?_) rfl
    have hkept := hwalk.maxSteps_clock keepsTime_dpor
    rw [hs] at hkept
    have hprepare : (Explorer.prepare after).2.clock = after.clock.restart := Dpor.clock_prepare after
    rw [hprepare, Clock.restart, hkept]
  have hothers : Explorer.Rounds (fun s schedule after =>
      Explorer.descend (b.cut depth []) s = (schedule, after)) ({ maxSteps } : Dpor γ) rounds result :=
    hrounds.imp fun round hround hwalk => hwalk.descend keepsTime_dpor (Nat.zero_add depth)
      (hclock round hround) hbound fun hzero => hshort hzero round hround
  have hdescends : Dpor.Descends γ maxSteps
      (fun s schedule after => Explorer.descend (b.cut depth []) s = (schedule, after))
      (b.cut depth []) := fun _ _ _ _ _ => Iff.rfl
  obtain ⟨all, final, hall, hshows⟩ := Dpor.exists_rounds hdescends (b.isProper_cut depth [])
  have hprefix := hall.prefix_of_complete
    (fun hwalk hwalk' => Prod.mk.inj (hwalk.symm.trans hwalk')) hothers
  refine ⟨depth, ?_⟩
  rw [← Dpor.map_taken_of_shows hshows]
  exact hprefix.map Round.taken

/-- The path of an iteration has one frame for each turn, in which the operation of the turn is
selected. So every label reads the frame of its own turn, and no turn is without a label. -/
theorem selected_of_mem_rounds
    (hrounds : Explorer.Rounds (b.Walks []) ({ maxSteps } : Dpor γ) rounds result)
    {round : Round (Dpor γ) ε} (hround : round ∈ rounds) : round.after.frames.map Frame.selected =
      (Decision.turns round.schedule.decisions).map fun turn => some turn.1 := by
  obtain ⟨depth, hprefix⟩ := exists_taken hrounds
  have hmem := hprefix.subset (List.mem_map_of_mem hround)
  obtain ⟨visit, hvisit, htaken⟩ := List.mem_map.mp hmem
  obtain ⟨hdecisions, hframes⟩ := Prod.mk.inj htaken
  obtain ⟨later, kept, hpath, hkept, hturns⟩ :=
    DecisionTree.path_of_mem_survey (b.isProper_cut depth []) hvisit
  cases hkept
  rw [← hframes, ← hdecisions, ← hturns, Visit.below, hpath, List.append_nil, List.drop_zero]

end Search

/-- A partial-order search of a program that is deterministic given the decisions, and in which an
announced step changes only for the operation that is scheduled, takes no two iterations that draw
the same values before the first turn, are equivalent, and have at every depth an enabled operation
that does not sleep. Every turn of an iteration has its label, which reads the frame of the turn. -/
theorem irredundant_search [RandomSource γ] (b : Behaviour ε) (hkeeps : b.KeepsSteps)
    {maxSteps : Nat} {rounds : List (Round (Dpor γ) ε)} {result : Bool × Dpor γ}
    (hrounds : Explorer.Rounds (b.Walks []) ({ maxSteps } : Dpor γ) rounds result) :
    (∀ round ∈ rounds, round.after.frames.map Frame.selected =
      (Decision.turns round.schedule.decisions).map fun turn => some turn.1) ∧
    rounds.Pairwise fun round later => round.IsAwake → later.IsAwake →
      Decision.values round.schedule.decisions = Decision.values later.schedule.decisions →
        ¬ Label.Equivalent round.labels later.labels := by
  refine ⟨fun round hround => selected_of_mem_rounds hrounds hround, ?_⟩
  obtain ⟨depth, hprefix⟩ := exists_taken hrounds
  have hvisits : (((b.cut depth []).survey {}).1.map Visit.taken).Pairwise fun path later =>
      (∀ frame ∈ path.2, frame.awake.isEmpty = false) →
        (∀ frame ∈ later.2, frame.awake.isEmpty = false) →
          Decision.values path.1 = Decision.values later.1 →
            ¬ Label.Equivalent (Label.ofPath path.1 path.2) (Label.ofPath later.1 later.2) :=
    List.pairwise_map.mpr
      (DecisionTree.pairwise_survey (b.isProper_cut depth []) (keepsSteps_cut hkeeps .start) {})
  exact List.pairwise_map.mp (hvisits.sublist hprefix.sublist)

/-- In a search of the endless tosses for three decisions no two iterations are equivalent. -/
theorem irredundant_search_tosses : tosses.KeepsSteps ∧
    ∃ (rounds : List (Round (Dpor ChaChaSource) Empty)) (final : Dpor ChaChaSource),
      Explorer.Rounds (tosses.Walks []) ({ maxSteps := 3 } : Dpor ChaChaSource) rounds
        (false, final) ∧
      (∀ round ∈ rounds, round.after.frames.map Frame.selected =
        (Decision.turns round.schedule.decisions).map fun turn => some turn.1) ∧
      rounds.Pairwise fun round later => round.IsAwake → later.IsAwake →
        Decision.values round.schedule.decisions = Decision.values later.schedule.decisions →
          ¬ Label.Equivalent round.labels later.labels := by
  have hturn {past : List Decision} {now : Operation} {ops : List Operation}
      (h : tosses.next past = .asked now (.operation ops)) :
      ops = [(Operation.new ⟨0⟩ "a").create, (Operation.new ⟨1⟩ "b").create] := by
    simp only [tosses] at h
    split at h
    · exact (Query.operation.inj (Event.asked.inj h).2).symm
    · cases (Event.asked.inj h).2
  have hkeeps : tosses.KeepsSteps := by
    intro past values now later ops next other id step _ _ hnow hlater _ hstep
    rwa [hturn hlater, ← hturn hnow]
  obtain ⟨depth, hseen⟩ := (tosses.isFinite_of_bound (by decide : 3 ≠ 0)).exists_depth
  obtain ⟨rounds, final, hrounds, -⟩ :=
    Dpor.exists_rounds (γ := ChaChaSource) (descends hseen) (tosses.isProper_cut depth [])
  exact ⟨hkeeps, rounds, final, hrounds, tosses.irredundant_search hkeeps hrounds⟩

/-- A program that draws a value and then schedules its only operation once. -/
def drawsFirst : Behaviour Unit where
  next
    | [] => .asked (Operation.new ⟨0⟩ "a").create (.boolean 2)
    | [_] => .asked (Operation.new ⟨0⟩ "a").create (.operation [(Operation.new ⟨0⟩ "a").create])
    | _ => .ended ()
  isAskedBy {past current query} h := by
    split at h
    · obtain ⟨rfl, rfl⟩ := Event.asked.inj h
      trivial
    · obtain ⟨rfl, rfl⟩ := Event.asked.inj h
      exact ⟨List.mem_cons_self, by decide⟩
    · cases h
  alternatives_ne_nil {past current query} h := by
    split at h
    · obtain ⟨rfl, rfl⟩ := Event.asked.inj h
      decide
    · obtain ⟨rfl, rfl⟩ := Event.asked.inj h
      decide
    · cases h

/-- Labels do not show the values that are drawn before the first turn. -/
theorem redundant_search_drawsFirst : drawsFirst.KeepsSteps ∧
    ∃ (rounds : List (Round (Dpor ChaChaSource) Unit)) (final : Dpor ChaChaSource),
      Explorer.Rounds (drawsFirst.Walks []) ({ maxSteps := 10 } : Dpor ChaChaSource) rounds
        (false, final) ∧
      ¬ rounds.Pairwise fun round later => round.IsAwake → later.IsAwake →
        ¬ Label.Equivalent round.labels later.labels := by
  have hkeeps : drawsFirst.KeepsSteps := by
    intro past values now later ops next other id step _ _ hnow hlater
    match past with
    | [] => cases (Event.asked.inj hnow).2
    | [_] => cases hlater
    | _ :: _ :: _ => cases hnow
  have hseen : drawsFirst.IsSeenTo 10 10 := ⟨fun _ => rfl, fun hzero => absurd hzero (by decide)⟩
  obtain ⟨rounds, final, hrounds, hshows⟩ :=
    Dpor.exists_rounds (γ := ChaChaSource) (descends hseen) (drawsFirst.isProper_cut 10 [])
  refine ⟨hkeeps, rounds, final, hrounds, fun hpairwise => ?_⟩
  have hvisits : (((drawsFirst.cut 10 []).survey {}).1.map Visit.taken).Pairwise fun path later =>
      (∀ frame ∈ path.2, frame.awake.isEmpty = false) →
        (∀ frame ∈ later.2, frame.awake.isEmpty = false) →
          ¬ Label.Equivalent (Label.ofPath path.1 path.2) (Label.ofPath later.1 later.2) := by
    rw [← Dpor.map_taken_of_shows hshows]
    exact List.pairwise_map.mpr hpairwise
  obtain ⟨visit, later, hsurvey, hawake, hawake', hsame⟩ : ∃ visit later,
      ((drawsFirst.cut 10 []).survey {}).1 = [visit, later] ∧
        Visit.IsAwake 0 visit ∧ Visit.IsAwake 0 later ∧ Visit.labels 0 visit = Visit.labels 0 later :=
    ⟨_, _, rfl, by decide, by decide, rfl⟩
  rw [hsurvey, List.pairwise_map, List.pairwise_pair] at hvisits
  apply hvisits hawake hawake'
  have hlabels : Label.ofPath (Visit.taken visit).1 (Visit.taken visit).2 =
      Label.ofPath (Visit.taken later).1 (Visit.taken later).2 := hsame
  rw [hlabels]
  exact .refl

end Behaviour

end ScheduleExplorer
