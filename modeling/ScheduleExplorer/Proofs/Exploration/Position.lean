import ScheduleExplorer.Proofs.Exploration.Trail

/-!
# Where a partial-order search stands

A search in a walk has come down a trail and may have more recorded: the values that come next, and
the frames after them. Each answer moves it along the trail: it goes on with what is recorded, and
where nothing is recorded with the first value, or with the operation that is tried first.
-/

namespace ScheduleExplorer

variable {γ : Type}

/-- The values of a frame are to be chosen again. -/
def Frame.rewind (frame : Frame) : Frame :=
  { frame with choices := frame.choices.rewind }

namespace Trail

/-- Records values to be chosen after the last turn. -/
def load (choices : List Choice) (t : Trail) : Trail :=
  t.mapChoices fun odometer => { odometer with ahead := choices }

/-- Nothing is recorded beyond the trail. -/
structure IsPassed (t : Trail) : Prop where
  frames : ∀ frame ∈ t.frames, frame.choices.ahead = []
  initial : t.initial.ahead = []

/-- Nothing is recorded beyond a trail that has been passed. -/
theorem IsPassed.load_nil {t : Trail} (h : t.IsPassed) : t.load [] = t := by
  obtain ⟨frames, initial⟩ := t
  cases frames with
  | nil =>
    have hinitial : initial.ahead = [] := h.initial
    obtain ⟨passed, ahead⟩ := initial
    obtain rfl : ahead = [] := hinitial
    rfl
  | cons frame earlier =>
    have hframe := h.frames frame List.mem_cons_self
    simp only [load, mapChoices, Trail.mk.injEq, List.cons.injEq, and_true]
    rw [← hframe]

/-- A value is passed. -/
theorem IsPassed.choose {t : Trail} (h : t.IsPassed) (choice : Choice) :
    (t.choose choice).IsPassed := by
  obtain ⟨frames, initial⟩ := t
  cases frames with
  | nil => exact ⟨h.frames, h.initial⟩
  | cons frame earlier =>
    refine ⟨fun other hother => ?_, h.initial⟩
    rcases List.mem_cons.mp hother with rfl | hearlier
    · exact h.frames frame List.mem_cons_self
    · exact h.frames other (List.mem_cons_of_mem _ hearlier)

/-- A frame without values is passed. -/
theorem IsPassed.push {t : Trail} (h : t.IsPassed) {frame : Frame} (hframe : frame.choices = {}) :
    (t.push frame).IsPassed := by
  refine ⟨fun other hother => ?_, h.initial⟩
  rcases List.mem_cons.mp hother with rfl | hearlier
  · rw [hframe]
  · exact h.frames other hearlier

/-- Growing touches no values. -/
theorem map_choices_of_grows {frames grown : List Frame} (h : frames.Forall₂ Frame.Grows grown) :
    grown.map Frame.choices = frames.map Frame.choices := by
  induction h with
  | nil => rfl
  | cons hfirst _ ih =>
    obtain ⟨backtrack, rfl, -⟩ := hfirst
    rw [List.map_cons, List.map_cons, ih]

/-- A trail that grows stays passed. -/
theorem IsPassed.grows {t grown : Trail} (h : t.IsPassed) (hgrown : t.Grows grown) :
    grown.IsPassed := by
  cases hgrown with
  | empty => exact h
  | @frame last later earlier before send hlast hearlier =>
    obtain ⟨backtrack, rfl, -⟩ := hlast
    refine ⟨fun other hother => ?_, h.initial⟩
    rcases List.mem_cons.mp hother with rfl | hbefore
    · exact h.frames last List.mem_cons_self
    · have hmem := List.mem_map_of_mem hbefore (f := Frame.choices)
      rw [map_choices_of_grows hearlier] at hmem
      obtain ⟨old, hold, heq⟩ := List.mem_map.mp hmem
      rw [← heq]
      exact h.frames old (List.mem_cons_of_mem _ hold)

/-- Values recorded beyond a value come after it. -/
theorem load_choose (choice : Choice) (choices : List Choice) (t : Trail) :
    (t.choose choice).load choices =
      t.mapChoices fun odometer => ⟨choice :: odometer.passed, choices⟩ := by
  obtain ⟨frames, initial⟩ := t
  cases frames <;> rfl

end Trail

namespace Dpor

variable (maxSteps : Nat) (stats : DporStats)

/-- A search that has come down a trail and has more recorded: values that come next, and frames. -/
def placed (steps : Nat) (t : Trail) (choices : List Choice) (ahead : List Frame) : Dpor γ where
  path := (t.load choices).frames
  ahead := ahead
  initial := (t.load choices).initial
  steps := steps
  maxSteps := maxSteps
  stats := stats

/-- A search that has a trail recorded, and more beyond it. -/
def recorded (t : Trail) (choices : List Choice) (ahead : List Frame) : Dpor γ where
  ahead := (t.load choices).frames.reverse.map Frame.rewind ++ ahead
  initial := (t.load choices).initial.rewind
  maxSteps := maxSteps
  stats := stats

variable {maxSteps stats} {steps : Nat} {t : Trail} {choices : List Choice} {ahead : List Frame}

/-- A search without values recorded holds the trail as it is. -/
theorem placed_nil (ht : t.IsPassed) :
    (placed maxSteps stats steps t [] ahead : Dpor γ) =
      { path := t.frames, ahead, initial := t.initial, steps, maxSteps, stats } := by
  rw [placed, ht.load_nil]

/-- A search that has nothing recorded beyond its trail. -/
theorem recorded_nil (ht : t.IsPassed) :
    (recorded maxSteps stats t [] [] : Dpor γ) =
      { ahead := t.frames.reverse.map Frame.rewind, initial := t.initial.rewind, maxSteps, stats } := by
  rw [recorded, ht.load_nil, List.append_nil]

/-- A value recorded beyond a trail is recorded at its end. -/
theorem recorded_choose (choice : Choice) :
    (recorded maxSteps stats (t.choose choice) choices ahead : Dpor γ) =
      recorded maxSteps stats t (choice :: choices) ahead := by
  obtain ⟨frames, initial⟩ := t
  rw [recorded, recorded, Trail.load_choose]
  cases frames with
  | nil =>
    simp only [Trail.load, Trail.mapChoices, Odometer.rewind, Odometer.toList, List.reverse_cons,
      List.append_assoc, List.singleton_append]
  | cons frame earlier =>
    simp only [Trail.load, Trail.mapChoices, List.reverse_cons, List.map_append, List.map_cons,
      List.map_nil, Frame.rewind, Odometer.rewind, Odometer.toList, List.append_assoc,
      List.singleton_append]

/-- A frame recorded beyond a trail is recorded at its end. -/
theorem recorded_push (ht : t.IsPassed) {frame : Frame} (hframe : frame.choices = {}) :
    (recorded maxSteps stats (t.push frame) choices ahead : Dpor γ) =
      recorded maxSteps stats t [] ({ frame with choices := ⟨[], choices⟩ } :: ahead) := by
  rw [recorded, recorded, ht.load_nil]
  simp only [Trail.load, Trail.push, Trail.mapChoices, List.reverse_cons, List.map_append,
    List.map_cons, List.map_nil, Frame.rewind, Odometer.rewind, Odometer.toList, hframe,
    List.reverse_nil, List.nil_append, List.append_assoc, List.singleton_append, ht.initial,
    List.append_nil]

/-! ### Answers -/

variable [RandomSource γ]

/-- Pushing a frame is not counted. -/
theorem clock_pushFrame (current : Operation) (ops : List Operation) (s : Dpor γ) :
    (s.pushFrame current ops).2.clock = s.clock := by
  have hpick (candidates : OpSet) (s : Dpor γ) :
      (s.pick current.id candidates).2.clock = s.clock := by
    rw [pick]
    dsimp only
    split
    · split <;> rfl
    · rfl
  rw [pushFrame]
  dsimp only
  generalize ({ Frame.capture ops with
    sleep := (s.path.head?.map Frame.inheritedSleep).getD {} } : Frame) = frame
  generalize hstart : (if frame.awake.isEmpty = true then
    { s with stats := { s.stats with sleepBlocked := s.stats.sleepBlocked + 1 } } else s) = start
  have hkept : start.clock = s.clock := by
    rw [← hstart]
    split <;> rfl
  rw [← hkept, ← hpick _ start]
  split
  · next hpicked => rw [hpicked]
  · next hpicked =>
    rw [hpicked]
    rfl

/-- A query is counted if it is answered. -/
theorem clock_answer (current : Operation) (query : Query) (s : Dpor γ) :
    (s.answer current query).2.clock = s.clock.tick (s.answer current query).1.isSome := by
  have hvalue (options : Nat) (s : Dpor γ) : (s.chooseValue options).2.clock = s.clock := by
    rw [chooseValue]
    split <;> rfl
  cases query with
  | operation ops =>
    have hsent : (s.recordMatchingSend ops).clock = s.clock := by
      rw [recordMatchingSend]
      split
      · rfl
      · dsimp only
        split <;> rfl
    have hpush : (pushFrame current ops { s.recordMatchingSend ops with ahead := [] }).2.clock =
        s.clock := (clock_pushFrame _ _ _).trans hsent
    rw [answer]
    dsimp only
    split
    · rfl
    · split
      · exact congrArg (Clock.tick true) hsent
      · split
        · next hpushed =>
          rw [hpushed] at hpush
          exact congrArg (Clock.tick true) hpush
        · next hpushed =>
          rw [hpushed] at hpush
          exact hpush
  | boolean => exact hvalue 2 s.step
  | integer bound => exact hvalue (max bound 1) s.step

/-- A recorded value is chosen again. -/
theorem chooseValue_recorded (options index : Nat) :
    (placed maxSteps stats steps t (⟨max options 1, index⟩ :: choices) ahead : Dpor γ).chooseValue
        options =
      (index, placed maxSteps stats steps (t.choose ⟨max options 1, index⟩) choices ahead) := by
  obtain ⟨frames, initial⟩ := t
  cases frames <;>
    simp [chooseValue, placed, Trail.load, Trail.choose, Trail.mapChoices, Odometer.draw,
      Odometer.recorded?, Odometer.next]

/-- Where no value is recorded the first one is chosen. -/
theorem chooseValue_fresh (options : Nat) :
    (placed maxSteps stats steps t [] ahead : Dpor γ).chooseValue options =
      (0, placed maxSteps stats steps (t.choose ⟨max options 1, 0⟩) [] ahead) := by
  obtain ⟨frames, initial⟩ := t
  cases frames <;>
    simp [chooseValue, placed, Trail.load, Trail.choose, Trail.mapChoices, Odometer.draw,
      Odometer.recorded?, Odometer.next, freshValue]

/-- A query for a value is answered by the alternative at the position that is chosen. -/
theorem answer_of_chooseValue {current : Operation} {query : Query} (hquery : query.IsValue)
    {s after : Dpor γ} {index : Nat} {value : query.Answer}
    (hvalue : query.alternatives[index]? = some value)
    (hchoose : ∀ options, max options 1 = query.alternatives.length →
      s.step.chooseValue options = (index, after)) :
    s.answer current query = (some value, after) := by
  cases query with
  | operation => exact hquery.elim
  | boolean bound =>
    have heq : value = (index == 0) := by
      rcases index with - | - | index <;> simp_all [Query.alternatives]
    simp only [answer, hchoose 2 rfl, heq]
  | integer bound =>
    obtain ⟨hlt, rfl⟩ := List.getElem?_eq_some_iff.mp hvalue
    have hlength : max (max bound 1) 1 = (Query.integer bound).alternatives.length := by
      simp [Query.alternatives]
    simp only [answer, hchoose _ hlength, Query.alternatives, List.getElem_range]

/-- A recorded value is answered again. -/
theorem answer_value_recorded {current : Operation} {query : Query} (hquery : query.IsValue)
    {index : Nat} {value : query.Answer} (hvalue : query.alternatives[index]? = some value) :
    (placed maxSteps stats steps t (⟨query.alternatives.length, index⟩ :: choices) ahead :
        Dpor γ).answer current query =
      (some value, placed maxSteps stats (steps + 1)
        (t.choose ⟨query.alternatives.length, index⟩) choices ahead) := by
  refine answer_of_chooseValue hquery hvalue fun options hoptions => ?_
  rw [← hoptions]
  exact chooseValue_recorded options index

/-- Where no value is recorded the first one is answered. -/
theorem answer_value_fresh {current : Operation} {query : Query} (hquery : query.IsValue)
    {value : query.Answer} (hvalue : query.alternatives[0]? = some value) :
    (placed maxSteps stats steps t [] ahead : Dpor γ).answer current query =
      (some value, placed maxSteps stats (steps + 1)
        (t.choose ⟨query.alternatives.length, 0⟩) [] ahead) := by
  refine answer_of_chooseValue hquery hvalue fun options hoptions => ?_
  rw [← hoptions]
  exact chooseValue_fresh options

omit [RandomSource γ] in
/-- The send that the last operation received from is recorded in the trail. -/
theorem recordMatchingSend_placed (ops : List Operation) :
    (placed maxSteps stats steps t choices ahead : Dpor γ).recordMatchingSend ops =
      placed maxSteps stats steps (t.recordSend ops) choices ahead := by
  obtain ⟨frames, initial⟩ := t
  cases frames with
  | nil => rfl
  | cons frame earlier =>
    cases hsend : Trail.sendOf? ops frame with
    | none =>
      have hnone : (do
          let selected ← frame.selected
          let op ← ops.find? fun op => op.id = selected
          op.matchingSend) = none := hsend
      simp only [recordMatchingSend, placed, Trail.recordSend, Trail.load, Trail.mapChoices, hsend,
        hnone]
    | some step =>
      have hsome : (do
          let selected ← frame.selected
          let op ← ops.find? fun op => op.id = selected
          op.matchingSend) = some step := hsend
      simp only [recordMatchingSend, placed, Trail.recordSend, Trail.load, Trail.mapChoices, hsend,
        hsome]

omit [RandomSource γ] in
/-- A table with an enabled operation holds one. -/
theorem anyEnabled_of_mem {ops : List Operation} {id : OperationId}
    (h : id ∈ Operation.enabledIds ops) : Operation.anyEnabled ops = true := by
  obtain ⟨op, hop, henabled, -⟩ := Operation.mem_enabledIds.mp h
  exact List.any_eq_true.mpr ⟨op, hop, henabled⟩

/-- A recorded operation that is enabled is answered again. -/
theorem answer_turn_recorded {current : Operation} {ops : List Operation} (ht : t.IsPassed)
    (hrecorded : t.IsRecorded ops) {frame : Frame} {id : OperationId}
    (hselected : frame.selected = some id) (hframe : frame.choices = {})
    (hid : id ∈ Operation.enabledIds ops) :
    (placed maxSteps stats steps t [] ({ frame with choices := ⟨[], choices⟩ } :: ahead) :
        Dpor γ).answer current (.operation ops) =
      (some id, placed maxSteps stats (steps + 1) (t.push frame) choices ahead) := by
  have hsome : Operation.anyEnabled ops = true := anyEnabled_of_mem hid
  have henabled : Operation.isEnabledIn ops id = true := by
    simpa [Operation.mem_enabledIds, Operation.isEnabledIn, and_comm] using hid
  have hsent : (placed maxSteps stats steps t [] ({ frame with choices := ⟨[], choices⟩ } :: ahead) :
      Dpor γ).recordMatchingSend ops =
        placed maxSteps stats steps t [] ({ frame with choices := ⟨[], choices⟩ } :: ahead) := by
    rw [recordMatchingSend_placed, hrecorded]
  have hreplayed : (placed maxSteps stats steps t []
      ({ frame with choices := ⟨[], choices⟩ } :: ahead) : Dpor γ).replayed? ops =
        some (id, { frame with choices := ⟨[], choices⟩ }, ahead) := by
    simp only [replayed?, placed, hselected, henabled, if_true]
  simp only [answer, hsome, Bool.not_true, Bool.false_eq_true, if_false, hsent, hreplayed]
  rw [placed_nil ht]
  simp only [placed, step, Trail.load, Trail.push, Trail.mapChoices, hframe]

/-- An exhaustive search pushes the frame with which a turn is entered below its path. -/
theorem pushFrame_of_enter? {s : Dpor γ} (hmode : s.random = none) {current : Operation}
    {ops : List Operation} {frame : Frame} {id : OperationId}
    (henter : (Trail.mk s.path s.initial).enter? current.id ops = some (id, frame)) :
    ∃ counted, s.pushFrame current ops =
      (some id, { s with path := frame :: s.path, stats := counted }) := by
  rw [Trail.enter?, Option.map_eq_some_iff] at henter
  obtain ⟨found, hfirst, heq⟩ := henter
  obtain ⟨rfl, rfl⟩ := Prod.mk.inj heq
  cases hblocked : ((Trail.mk s.path s.initial).capture ops).awake.isEmpty with
  | true =>
    rw [Trail.first?, hblocked] at hfirst
    simp only [Trail.capture, if_true] at hblocked hfirst
    simp only [pushFrame, hblocked, if_true, pick, hmode, hfirst]
    exact ⟨_, rfl⟩
  | false =>
    rw [Trail.first?, hblocked] at hfirst
    simp only [Trail.capture, Bool.false_eq_true, if_false] at hblocked hfirst
    simp only [pushFrame, hblocked, Bool.false_eq_true, if_false, pick, hmode, hfirst]
    exact ⟨_, rfl⟩

/-- A frame is pushed as a turn is entered. -/
theorem pushFrame_placed {current : Operation} {ops : List Operation} (ht : t.IsPassed)
    {frame : Frame} {id : OperationId} (henter : t.enter? current.id ops = some (id, frame)) :
    ∃ counted, (placed maxSteps stats steps t [] [] : Dpor γ).pushFrame current ops =
      (some id, placed maxSteps counted steps (t.push frame) [] []) := by
  have hpushed := ht.push (Trail.isOpen_enter henter).choices
  rw [placed_nil ht]
  obtain ⟨counted, hpush⟩ := pushFrame_of_enter? (γ := γ)
    (s := { path := t.frames, ahead := [], initial := t.initial, steps, maxSteps, stats }) rfl henter
  exact ⟨counted, by rw [hpush, placed_nil hpushed]; rfl⟩

/-- Where no operation is recorded a frame is entered. -/
theorem answer_turn_fresh {current : Operation} {ops : List Operation}
    (ht : t.IsPassed) {frame : Frame} {id : OperationId}
    (henter : (t.recordSend ops).enter? current.id ops = some (id, frame)) :
    ∃ counted, (placed maxSteps stats steps t [] [] : Dpor γ).answer current (.operation ops) =
      (some id, placed maxSteps counted (steps + 1) ((t.recordSend ops).push frame) [] []) := by
  have hsome : Operation.anyEnabled ops = true := anyEnabled_of_mem (Trail.isOpen_enter henter).mem
  have hpassed := ht.grows (t.grows_recordSend ops)
  obtain ⟨counted, hpush⟩ : ∃ counted, (placed maxSteps stats steps (t.recordSend ops) [] [] :
      Dpor γ).pushFrame current ops =
        (some id, placed maxSteps counted steps ((t.recordSend ops).push frame) [] []) :=
    pushFrame_placed hpassed henter
  have hnone : (placed maxSteps stats steps (t.recordSend ops) [] [] : Dpor γ).replayed? ops = none :=
    rfl
  have hahead : { (placed maxSteps stats steps (t.recordSend ops) [] [] : Dpor γ) with ahead := [] } =
      placed maxSteps stats steps (t.recordSend ops) [] [] := rfl
  refine ⟨counted, ?_⟩
  simp only [answer, hsome, Bool.not_true, Bool.false_eq_true, if_false, recordMatchingSend_placed,
    hnone, hahead, hpush]
  rfl

end Dpor

/-! ### Moving on -/

namespace Trail

/-- Moves the last frame with an untried value or operation on, in frames held last first; the
frames after it are dropped. -/
def moveOn? : List Frame → Option (List Frame)
  | [] => none
  | frame :: earlier =>
    match Odometer.advanceReversed frame.choices.passed with
    | choice :: before => some ({ frame with choices := ⟨choice :: before, []⟩ } :: earlier)
    | [] =>
      match frame.close.unexplored.first? with
      | some id => some (frame.close.select id :: earlier)
      | none => moveOn? earlier

/-- The trail on which a search goes on from the end of a trail, if anything is left to try. -/
def next? (t : Trail) : Option Trail :=
  match moveOn? t.frames with
  | some frames => some { t with frames }
  | none =>
    match Odometer.advanceReversed t.initial.passed with
    | choice :: before => some ⟨[], ⟨choice :: before, []⟩⟩
    | [] => none

/-- After a value the search goes on with the next one, and after the last one before the value. -/
theorem next?_choose {t : Trail} (ht : t.IsPassed) (options index : Nat) :
    (t.choose ⟨options, index⟩).next? =
      if index + 1 < options then some (t.choose ⟨options, index + 1⟩) else t.next? := by
  obtain ⟨frames, initial⟩ := t
  cases frames with
  | nil =>
    have hahead : initial.ahead = [] := ht.initial
    by_cases huntried : index + 1 < options <;>
      simp [next?, choose, mapChoices, moveOn?, Odometer.advanceReversed, Choice.hasUntried,
        huntried, hahead]
  | cons frame earlier =>
    have hahead := ht.frames frame List.mem_cons_self
    by_cases huntried : index + 1 < options
    · simp [next?, choose, mapChoices, moveOn?, Odometer.advanceReversed, Choice.hasUntried,
        huntried, hahead]
    · simp only [next?, choose, mapChoices, moveOn?, Odometer.advanceReversed, Choice.hasUntried,
        huntried, decide_false, Bool.false_eq_true, if_false]
      rfl

/-- Below a value that has been gone through, the search goes on with the next one, and below the
last one before the value. -/
theorem Grows.next?_of_choose {t grown : Trail} (ht : t.IsPassed) {options index : Nat}
    (h : (t.choose ⟨options, index⟩).Grows grown) :
    grown.next? =
      if index + 1 < options then some (grown.unchoose.choose ⟨options, index + 1⟩)
      else grown.unchoose.next? := by
  obtain ⟨hback, heq⟩ := h.of_choose
  have hnext := next?_choose (ht.grows hback) options index
  rwa [heq] at hnext

/-- After a turn the search goes on with the next operation that is to be tried, and after the last
one before the turn. -/
theorem next?_push (t : Trail) {frame : Frame} (hframe : frame.choices = {}) :
    (t.push frame).next? =
      match frame.close.unexplored.first? with
      | some id => some (t.push (frame.close.select id))
      | none => t.next? := by
  simp only [next?, push, moveOn?, hframe, Odometer.advanceReversed]
  cases frame.close.unexplored.first? <;> rfl

/-- The frames with which a search goes on end in one with something to try, and nothing is recorded
beyond them. -/
theorem moveOn?_spec {frames next : List Frame} (h : ∀ frame ∈ frames, frame.choices.ahead = [])
    (hnext : moveOn? frames = some next) :
    next ≠ [] ∧ ∀ frame ∈ next, frame.choices.ahead = [] := by
  induction frames with
  | nil => cases hnext
  | cons frame earlier ih =>
    have hearlier : ∀ other ∈ earlier, other.choices.ahead = [] :=
      fun other hother => h other (List.mem_cons_of_mem _ hother)
    rw [moveOn?] at hnext
    split at hnext
    · obtain rfl := Option.some.inj hnext
      exact ⟨List.cons_ne_nil _ _, List.forall_mem_cons.mpr ⟨rfl, hearlier⟩⟩
    · split at hnext
      · obtain rfl := Option.some.inj hnext
        exact ⟨List.cons_ne_nil _ _, List.forall_mem_cons.mpr ⟨rfl, hearlier⟩⟩
      · exact ih hearlier hnext

/-- Nothing is recorded beyond a trail on which a search goes on. -/
theorem IsPassed.next? {t next : Trail} (ht : t.IsPassed) (h : t.next? = some next) :
    next.IsPassed := by
  rw [Trail.next?] at h
  split at h
  · next frames hframes =>
    obtain rfl := Option.some.inj h
    exact ⟨(moveOn?_spec ht.frames hframes).2, ht.initial⟩
  · split at h
    · obtain rfl := Option.some.inj h
      exact ⟨fun _ hnone => absurd hnone List.not_mem_nil, rfl⟩
    · cases h

/-- Moving on in frames, the last one of which is closed if no value is left in it. -/
theorem rewindFrames_cons (frame : Frame) (earlier : List Frame) :
    Dpor.rewindFrames (frame :: earlier) =
      if !frame.choices.advance.isEmpty then
        (false, { frame with choices := frame.choices.advance } :: earlier)
      else match frame.close.unexplored.first? with
        | some id => (true, frame.close.select id :: earlier)
        | none => Dpor.rewindFrames earlier :=
  rfl

/-- A search moves on in its frames as it does on the trail. -/
theorem map_rewind_rewindFrames {frames : List Frame}
    (h : ∀ frame ∈ frames, frame.choices.ahead = []) :
    (Dpor.rewindFrames frames).2.map Frame.rewind =
      ((moveOn? frames).getD []).map Frame.rewind := by
  induction frames with
  | nil => rfl
  | cons frame earlier ih =>
    have hadvance : frame.choices.advance =
        ⟨[], (Odometer.advanceReversed frame.choices.passed).reverse⟩ := by
      rw [Odometer.advance, Odometer.toList, h frame List.mem_cons_self, List.append_nil,
        List.reverse_reverse]
    have hearlier := ih fun other hother => h other (List.mem_cons_of_mem _ hother)
    rw [rewindFrames_cons, hadvance, moveOn?]
    cases Odometer.advanceReversed frame.choices.passed with
    | cons choice before =>
      simp [Odometer.isEmpty, Frame.rewind, Odometer.rewind, Odometer.toList]
    | nil =>
      cases frame.close.unexplored.first? with
      | some id => rfl
      | none => exact hearlier

end Trail

namespace Dpor

variable [RandomSource γ] {maxSteps : Nat} {stats : DporStats} {steps : Nat} {t : Trail}

/-- At the end of a path the search analyses it and moves on. -/
theorem prepare_placed (ht : t.IsPassed) :
    ∃ counted, (placed maxSteps stats steps t [] [] : Dpor γ).prepare =
      match t.analyse.next? with
      | some next => (true, recorded maxSteps counted next [] [])
      | none => (false, recorded maxSteps counted {} [] []) := by
  have hanalysed := ht.grows t.grows_analyse
  have hframes := Trail.map_rewind_rewindFrames hanalysed.frames
  have hanalyse : (addRaces (Race.ofPath t.frames.reverse) t.frames.reverse).reverse =
      t.analyse.frames := rfl
  rw [placed_nil ht]
  simp only [prepare, frames, List.append_nil, prepareExhaustive, hanalyse]
  cases hmoved : Trail.moveOn? t.analyse.frames with
  | some moved =>
    have hnext : t.analyse.next? = some { t.analyse with frames := moved } := by
      rw [Trail.next?, hmoved]
    rw [hmoved, Option.getD_some] at hframes
    have hsome : (rewindFrames t.analyse.frames).2.isEmpty = false := by
      rw [← List.isEmpty_map, hframes, List.isEmpty_map, List.isEmpty_eq_false_iff]
      exact (Trail.moveOn?_spec hanalysed.frames hmoved).1
    have hrestart (s : Dpor γ) : restart (rewindFrames t.analyse.frames).2.reverse s =
        { s with
          path := []
          ahead := moved.reverse.map Frame.rewind
          initial := s.initial.rewind
          steps := 0 } := by
      rw [List.map_reverse, ← hframes, ← List.map_reverse]
      rfl
    simp only [hsome, Bool.false_eq_true, if_false, hnext, recorded_nil (hanalysed.next? hnext),
      hrestart]
    exact ⟨_, rfl⟩
  | none =>
    rw [hmoved, Option.getD_none, List.map_nil, List.map_eq_nil_iff] at hframes
    have hadvance : t.initial.advance =
        ⟨[], (Odometer.advanceReversed t.initial.passed).reverse⟩ := by
      rw [Odometer.advance, Odometer.toList, ht.initial, List.append_nil, List.reverse_reverse]
    have hinitial : t.analyse.initial = t.initial := rfl
    simp only [hframes, List.isEmpty_nil, if_true, hadvance, Trail.next?, hmoved, hinitial]
    cases Odometer.advanceReversed t.initial.passed with
    | cons choice before =>
      have hrewind : (⟨[], (choice :: before).reverse⟩ : Odometer).rewind =
          (⟨choice :: before, []⟩ : Odometer).rewind := by
        simp [Odometer.rewind, Odometer.toList]
      have hsome : (⟨[], (choice :: before).reverse⟩ : Odometer).isEmpty = false := by
        simp [Odometer.isEmpty]
      simp only [restart, hrewind, hsome, Bool.not_false]
      exact ⟨_, rfl⟩
    | nil => exact ⟨_, rfl⟩

end Dpor

end ScheduleExplorer
