import ScheduleExplorer.Proofs.Exploration.Behaviour

/-!
# What a search has recorded

A partial-order search records the turns that it has passed on and the values that it has chosen. Its
record is an account of what a deterministic program does if every turn and every value of it is a
possible answer to what the program asks after those before it.

Such a record can be cut off at a turn and go on with any other operation that was enabled there. A
search that begins with it replays it decision by decision, and draws only when nothing is left of it.
-/

namespace ScheduleExplorer

variable {ε γ : Type}

/-- To choose a value schedules no operation. -/
theorem Query.IsValue.operation?_decision {query : Query} (h : query.IsValue)
    (value : query.Answer) : (query.decision value).operation? = none := by
  cases query with
  | operation => exact h.elim
  | _ => rfl

/-- What is recorded of a turn: the operations that were enabled, the one that was selected, and the
values that were chosen after it. -/
structure TurnRecord where
  enabled : OpSet
  selected : Option OperationId
  choices : List Choice

/-- What a frame records of its turn. -/
def Frame.record (frame : Frame) : TurnRecord :=
  ⟨frame.enabled, frame.selected, frame.choices.toList⟩

/-- A turn is recorded as it was: the operations of a table were enabled, and one of them was
selected. -/
structure TurnRecord.Shows (turn : TurnRecord) (ops : List Operation) (id : OperationId) : Prop where
  enabled : ∀ other, turn.enabled.contains other = true ↔ other ∈ Operation.enabledIds ops
  selected : turn.selected = some id
  isEnabled : id ∈ Operation.enabledIds ops

namespace Behaviour

/-- The values and turns of a record are what the program decides after some decisions. -/
inductive Records (b : Behaviour ε) :
    List Decision → List Choice → List TurnRecord → List Decision → Prop where
  | nothing (past : List Decision) : Records b past [] [] []
  | value {past decisions : List Decision} {current : Operation} {query : Query} {index : Nat}
      {value : query.Answer} {choices : List Choice} {turns : List TurnRecord}
      (hnext : b.next past = .asked current query) (hquery : query.IsValue)
      (hvalue : query.alternatives[index]? = some value)
      (hrest : Records b (past ++ [query.decision value]) choices turns decisions) :
      Records b past (⟨query.alternatives.length, index⟩ :: choices) turns
        (query.decision value :: decisions)
  | turn {past decisions : List Decision} {current : Operation} {ops : List Operation}
      {id : OperationId} {turn : TurnRecord} {turns : List TurnRecord}
      (hnext : b.next past = .asked current (.operation ops)) (hshows : turn.Shows ops id)
      (hrest : Records b (past ++ [.operation id]) turn.choices turns decisions) :
      Records b past [] (turn :: turns) (.operation id :: decisions)

namespace Records

variable {b : Behaviour ε} {past decisions : List Decision} {choices : List Choice}
  {turns : List TurnRecord} {current : Operation} {query : Query}

/-- A value that is chosen before any turn comes last in a record without turns. -/
theorem append_value (h : b.Records past choices [] decisions)
    (hnext : b.next (past ++ decisions) = .asked current query) (hquery : query.IsValue) {index : Nat}
    {value : query.Answer} (hvalue : query.alternatives[index]? = some value) :
    b.Records past (choices ++ [⟨query.alternatives.length, index⟩]) []
      (decisions ++ [query.decision value]) := by
  generalize hturns : ([] : List TurnRecord) = turns at h
  induction h with
  | nothing past =>
    rw [List.append_nil] at hnext
    exact .value hnext hquery hvalue (.nothing _)
  | value hfirst hfirstQuery hfirstValue _ ih =>
    rw [List.append_cons] at hnext
    exact .value hfirst hfirstQuery hfirstValue (hturns ▸ ih hnext hturns)
  | turn => cases hturns

/-- A value that is chosen after a turn comes last in the record of this turn. -/
theorem append_value_turn {turn : TurnRecord}
    (h : b.Records past choices (turns ++ [turn]) decisions)
    (hnext : b.next (past ++ decisions) = .asked current query) (hquery : query.IsValue) {index : Nat}
    {value : query.Answer} (hvalue : query.alternatives[index]? = some value) :
    b.Records past choices
      (turns ++ [{ turn with choices := turn.choices ++ [⟨query.alternatives.length, index⟩] }])
      (decisions ++ [query.decision value]) := by
  generalize hturns : turns ++ [turn] = recorded at h
  induction h generalizing turns with
  | nothing => cases turns <;> cases hturns
  | value hfirst hfirstQuery hfirstValue _ ih =>
    rw [List.append_cons] at hnext
    exact .value hfirst hfirstQuery hfirstValue (ih hnext hturns)
  | turn hfirst hshows hrest ih =>
    rw [List.append_cons] at hnext
    cases turns with
    | nil =>
      obtain ⟨rfl, rfl⟩ := List.cons.inj hturns
      exact .turn hfirst ⟨hshows.enabled, hshows.selected, hshows.isEnabled⟩
        (hrest.append_value hnext hquery hvalue)
    | cons first rest =>
      obtain ⟨rfl, hlater⟩ := List.cons.inj hturns
      exact .turn hfirst hshows (ih hnext hlater)

/-- A turn comes last in a record. -/
theorem append_turn (h : b.Records past choices turns decisions) {ops : List Operation}
    (hnext : b.next (past ++ decisions) = .asked current (.operation ops)) {turn : TurnRecord}
    {id : OperationId} (hshows : turn.Shows ops id) (hnone : turn.choices = []) :
    b.Records past choices (turns ++ [turn]) (decisions ++ [.operation id]) := by
  induction h with
  | nothing past =>
    rw [List.append_nil] at hnext
    exact .turn hnext hshows (hnone ▸ .nothing _)
  | value hfirst hquery hvalue _ ih =>
    rw [List.append_cons] at hnext
    exact .value hfirst hquery hvalue (ih hnext)
  | turn hfirst hfirstShows _ ih =>
    rw [List.append_cons] at hnext
    exact .turn hfirst hfirstShows (ih hnext)

/-- The values before the first turn are a record by themselves. -/
theorem exists_values (h : b.Records past choices turns decisions) :
    ∃ values, b.Records past choices [] values := by
  induction h with
  | nothing past => exact ⟨[], .nothing past⟩
  | value hnext hquery hvalue _ ih =>
    obtain ⟨values, hvalues⟩ := ih
    exact ⟨_, .value hnext hquery hvalue hvalues⟩
  | turn => exact ⟨[], .nothing _⟩

/-- A record can be cut off at a turn of it, before the values that were chosen after the turn or
behind them, and it can go on with another operation that was enabled there. -/
structure CutsAt (b : Behaviour ε) (past : List Decision) (choices : List Choice)
    (turns : List TurnRecord) (index : Nat) (before : List Decision) (ops : List Operation)
    (id : OperationId) : Prop where
  turns_before : (before.filterMap Decision.operation?).length = index
  asked : ∃ current, b.next (past ++ before) = .asked current (.operation ops)
  shows : ∀ turn, turns[index]? = some turn → turn.Shows ops id
  behind : ∃ values, b.Records past choices (turns.take (index + 1)) (before ++ .operation id :: values)
  other : ∀ (turn : TurnRecord) (next : OperationId), turn.Shows ops next → turn.choices = [] →
    b.Records past choices (turns.take index ++ [turn]) (before ++ [.operation next])

/-- A record can be cut off at each of its turns. -/
theorem exists_cutsAt (h : b.Records past choices turns decisions) {index : Nat}
    (hindex : index < turns.length) :
    ∃ before ops id rest, decisions = before ++ .operation id :: rest ∧
      CutsAt b past choices turns index before ops id := by
  induction h generalizing index with
  | nothing => cases hindex
  | @value past decisions current query position value choices turns hnext hquery hvalue _ ih =>
    obtain ⟨before, ops, id, rest, rfl, hcut⟩ := ih hindex
    refine ⟨query.decision value :: before, ops, id, rest, rfl, ?_, ?_, hcut.shows, ?_, ?_⟩
    · rw [List.filterMap_cons_none (hquery.operation?_decision value)]
      exact hcut.turns_before
    · rw [List.append_cons]
      exact hcut.asked
    · obtain ⟨values, hvalues⟩ := hcut.behind
      exact ⟨values, .value hnext hquery hvalue hvalues⟩
    · intro turn next hshows hnone
      exact .value hnext hquery hvalue (hcut.other turn next hshows hnone)
  | @turn past decisions current ops id turn turns hnext hshows hrest ih =>
    cases index with
    | zero =>
      refine ⟨[], ops, id, decisions, rfl, rfl, ⟨current, by rw [List.append_nil]; exact hnext⟩, ?_,
        ?_, ?_⟩
      · intro first hfirst
        obtain rfl := Option.some.inj hfirst
        exact hshows
      · obtain ⟨values, hvalues⟩ := hrest.exists_values
        exact ⟨values, .turn hnext hshows hvalues⟩
      · intro other next hother hnone
        exact .turn hnext hother (hnone ▸ .nothing _)
    | succ index =>
      obtain ⟨before, ops', id', rest, rfl, hcut⟩ := ih (Nat.lt_of_succ_lt_succ hindex)
      refine ⟨.operation id :: before, ops', id', rest, rfl, ?_, ?_, hcut.shows, ?_, ?_⟩
      · exact congrArg (· + 1) hcut.turns_before
      · rw [List.append_cons]
        exact hcut.asked
      · obtain ⟨values, hvalues⟩ := hcut.behind
        exact ⟨values, .turn hnext hshows hvalues⟩
      · intro other next hother hnone
        exact .turn hnext hshows (hcut.other other next hother hnone)

end Records

end Behaviour

/-! ### What stands in a search -/

namespace Dpor

variable {s : Dpor γ}

/-- Puts other values in the place of those chosen since the last turn. -/
def withCursor (odometer : Odometer) (s : Dpor γ) : Dpor γ :=
  match s.path with
  | [] => { s with initial := odometer }
  | frame :: earlier => { s with path := { frame with choices := odometer } :: earlier }

/-- The cursor that has been put in place is the cursor. -/
@[simp] theorem cursor_withCursor (odometer : Odometer) (s : Dpor γ) :
    (s.withCursor odometer).cursor = odometer := by
  cases hpath : s.path <;> simp [withCursor, cursor, hpath]

/-- Putting a cursor in place leaves the frames ahead alone. -/
@[simp] theorem ahead_withCursor (odometer : Odometer) (s : Dpor γ) :
    (s.withCursor odometer).ahead = s.ahead := by
  cases hpath : s.path <;> simp [withCursor, hpath]

/-- Putting a cursor in place leaves the length of the path alone. -/
@[simp] theorem length_path_withCursor (odometer : Odometer) (s : Dpor γ) :
    (s.withCursor odometer).path.length = s.path.length := by
  cases hpath : s.path <;> simp [withCursor, hpath]

/-- Putting a cursor in place counts no step. -/
@[simp] theorem steps_withCursor (odometer : Odometer) (s : Dpor γ) :
    (s.withCursor odometer).steps = s.steps := by
  cases hpath : s.path <;> simp [withCursor, hpath]

/-- Putting a cursor in place leaves the step bound alone. -/
@[simp] theorem maxSteps_withCursor (odometer : Odometer) (s : Dpor γ) :
    (s.withCursor odometer).maxSteps = s.maxSteps := by
  cases hpath : s.path <;> simp [withCursor, hpath]

/-- The turns that a search has recorded, those that it has passed and those that it is to replay. -/
def turns (s : Dpor γ) : List TurnRecord :=
  s.frames.map Frame.record

/-- Values that are only passed over stay recorded as they were. -/
theorem record_withCursor {odometer : Odometer} (h : odometer.toList = s.cursor.toList) :
    (s.withCursor odometer).initial.toList = s.initial.toList ∧
      (s.withCursor odometer).turns = s.turns := by
  cases hpath : s.path with
  | nil =>
    rw [cursor, hpath] at h
    simp [withCursor, turns, frames, hpath, h]
  | cons frame earlier =>
    rw [cursor, hpath] at h
    simp [withCursor, turns, frames, hpath, Frame.record, h]

/-- A value that is chosen where nothing more is recorded comes last: after those before the first
turn, or after those of the last turn. -/
theorem record_withCursor_cons (choice : Choice) (hcursor : s.cursor.ahead = [])
    (hahead : s.ahead = []) :
    (s.turns = [] ∧ (s.withCursor ⟨choice :: s.cursor.passed, []⟩).turns = [] ∧
      (s.withCursor ⟨choice :: s.cursor.passed, []⟩).initial.toList =
        s.initial.toList ++ [choice]) ∨
    ∃ earlier last, s.turns = earlier ++ [last] ∧
      (s.withCursor ⟨choice :: s.cursor.passed, []⟩).turns =
        earlier ++ [{ last with choices := last.choices ++ [choice] }] ∧
      (s.withCursor ⟨choice :: s.cursor.passed, []⟩).initial.toList = s.initial.toList := by
  cases hpath : s.path with
  | nil =>
    rw [cursor, hpath] at hcursor
    refine .inl ⟨?_, ?_, ?_⟩ <;>
      simp [withCursor, cursor, turns, frames, hpath, hahead, Odometer.toList, hcursor]
  | cons frame earlier =>
    rw [cursor, hpath] at hcursor
    refine .inr ⟨earlier.reverse.map Frame.record, frame.record, ?_, ?_, ?_⟩ <;>
      simp [withCursor, cursor, turns, frames, hpath, hahead, Frame.record, Odometer.toList,
        hcursor]

variable [RandomSource γ]

/-- A value is chosen at the cursor. -/
theorem chooseValue_eq (options : Nat) (s : Dpor γ) : s.chooseValue options =
    ((s.cursor.draw options freshValue s.random).1,
      { s.withCursor (s.cursor.draw options freshValue s.random).2.1 with
        random := (s.cursor.draw options freshValue s.random).2.2 }) := by
  cases hpath : s.path <;> simp [chooseValue, cursor, withCursor, hpath]

/-- There is always an option. -/
theorem chooseValue_max (options : Nat) (s : Dpor γ) :
    s.chooseValue (max options 1) = s.chooseValue options := by
  simp only [chooseValue_eq, Odometer.draw, Nat.max_assoc, Nat.max_self]

/-- A recorded value is chosen again, and nothing is drawn for it. -/
theorem chooseValue_of_cons {options index : Nat} {choices : List Choice}
    (h : s.cursor.ahead = ⟨max options 1, index⟩ :: choices) : s.chooseValue options =
      (index, s.withCursor ⟨⟨max options 1, index⟩ :: s.cursor.passed, choices⟩) := by
  have hdraw : s.cursor.draw options freshValue s.random =
      (index, ⟨⟨max options 1, index⟩ :: s.cursor.passed, choices⟩, s.random) := by
    simp [Odometer.draw, Odometer.recorded?, Odometer.next, h]
  rw [chooseValue_eq, hdraw]
  cases hpath : s.path <;> simp [withCursor, hpath]

/-- Where no value is recorded a random search draws one, whatever its source gives. -/
theorem chooseValue_of_nil {mode : ReversalMode γ} (hrandom : s.random = some mode)
    (h : s.cursor.ahead = []) (options : Nat) : ∃ index < max options 1, ∃ source,
      s.chooseValue options =
        (index, { s.withCursor ⟨⟨max options 1, index⟩ :: s.cursor.passed, []⟩ with
          random := some { mode with source } }) := by
  obtain ⟨source, hfresh⟩ : ∃ source, freshValue (max options 1) s.random =
      ((freshValue (max options 1) s.random).1, some { mode with source }) := by
    rw [hrandom]
    exact ⟨_, rfl⟩
  generalize (freshValue (max options 1) s.random).1 = fresh at hfresh
  refine ⟨min fresh (max options 1 - 1), by omega, source, ?_⟩
  have hdraw : s.cursor.draw options freshValue s.random =
      (min fresh (max options 1 - 1),
        ⟨⟨max options 1, min fresh (max options 1 - 1)⟩ :: s.cursor.passed, []⟩,
        some { mode with source }) := by
    simp only [Odometer.draw, Odometer.recorded?, Odometer.next, h, hfresh]
  rw [chooseValue_eq, hdraw]

omit [RandomSource γ] in
/-- Which send an operation has received from is no part of what is recorded of its turn. -/
theorem exists_recordMatchingSend (ops : List Operation) (s : Dpor γ) :
    ∃ path, s.recordMatchingSend ops = { s with path } ∧ path.map Frame.record = s.path.map Frame.record ∧
      path.length = s.path.length := by
  rw [recordMatchingSend]
  split
  · exact ⟨s.path, rfl, rfl, rfl⟩
  · next frame earlier hpath =>
    dsimp only
    split
    · next step _ =>
      refine ⟨{ frame with matchingSend := some step } :: earlier, rfl, ?_, ?_⟩
      · rw [hpath]
        rfl
      · rw [hpath]
        rfl
    · exact ⟨s.path, rfl, rfl, rfl⟩

/-- Picking changes no more of the random mode than its source. -/
theorem exists_random_pick {mode : ReversalMode γ} (hrandom : s.random = some mode)
    {current : OperationId} {candidates : OpSet} {choice : Option OperationId} {after : Dpor γ}
    (hpick : s.pick current candidates = (choice, after)) :
    ∃ source, after.random = some { mode with source } := by
  rw [pick, hrandom] at hpick
  dsimp only at hpick
  split at hpick
  · obtain ⟨-, rfl⟩ := Prod.mk.inj hpick
    exact ⟨mode.source, hrandom⟩
  · obtain ⟨-, rfl⟩ := Prod.mk.inj hpick
    exact ⟨_, rfl⟩

/-- A new frame of a random search records a turn as it was, and no values after it. -/
theorem exists_pushFrame (hdraws : ∀ (bound : Nat) (source : γ), 0 < bound →
      (RandomSource.nextBounded bound source).1 < bound)
    {mode : ReversalMode γ} (hrandom : s.random = some mode) (current : Operation)
    {ops : List Operation} (hsome : Operation.enabledIds ops ≠ []) :
    ∃ id frame source stats, frame.record.Shows ops id ∧ frame.choices = {} ∧
      s.pushFrame current ops = (some id,
        { s with path := frame :: s.path, random := some { mode with source }, stats }) := by
  obtain ⟨id, hid, frame, random, stats, hchoices, hpush⟩ := pushFrame_eq hdraws hsome current s
  have hopened := hpush
  rw [pushFrame] at hopened
  dsimp only at hopened
  split at hopened
  · cases hopened
  · next choice picked hpick =>
    obtain ⟨hchoice, hafter⟩ := Prod.mk.inj hopened
    obtain rfl := Option.some.inj hchoice
    have hframe := (List.cons.inj (congrArg Dpor.path hafter)).1
    have hshows : frame.record.Shows ops choice := by
      rw [← hframe]
      exact ⟨fun other => Frame.contains_enabled_capture, rfl, hid⟩
    obtain ⟨source, hpicked⟩ : ∃ source, picked.random = some { mode with source } := by
      refine exists_random_pick ?_ hpick
      split <;> exact hrandom
    obtain rfl : random = some { mode with source } :=
      (congrArg Dpor.random hafter).symm.trans hpicked
    exact ⟨choice, frame, source, stats, hshows, hchoices, hpush⟩

end Dpor

namespace Behaviour

variable {b : Behaviour ε} {past upcoming : List Decision} {decision : Decision} {s : Dpor γ}
  {current : Operation} {query : Query} {value : query.Answer}

/-- A search stands in a walk: it has come to decisions, and some more are recorded to be replayed.
All that it has recorded is an account of what the program does. -/
structure Stands (b : Behaviour ε) (past upcoming : List Decision) (s : Dpor γ) : Prop where
  all : b.Records [] s.initial.toList s.turns (past ++ upcoming)
  ahead : b.Records past s.cursor.ahead (s.ahead.map Frame.record) upcoming
  rewound : ∀ frame ∈ s.ahead, frame.choices.passed = []
  turns : (past.filterMap Decision.operation?).length = s.path.length
  steps : s.steps = past.length

/-- A query for a value is what is recorded next if as many values were possible, or nothing is
recorded. -/
theorem replays_iff (hquery : query.IsValue) : s.Replays query ↔
    (s.cursor.ahead = [] → s.ahead = []) ∧ ∀ choice rest, s.cursor.ahead = choice :: rest →
      choice.options = query.alternatives.length := by
  cases query with
  | operation => exact hquery.elim
  | _ => rfl

/-- After a value a search stands as before, but for the values chosen since the last turn. -/
theorem Stands.after_value {later : List Decision} (h : b.Stands past upcoming s)
    (hquery : query.IsValue) {odometer : Odometer}
    (hall : b.Records [] (s.withCursor odometer).initial.toList (s.withCursor odometer).turns
      (past ++ [query.decision value] ++ later))
    (hahead : b.Records (past ++ [query.decision value]) odometer.ahead (s.ahead.map Frame.record)
      later) (random : Option (ReversalMode γ)) :
    b.Stands (past ++ [query.decision value]) later { s.step.withCursor odometer with random } := by
  have hstep : s.step.withCursor odometer = (s.withCursor odometer).step := by
    cases hpath : s.path <;> simp [Dpor.withCursor, Dpor.step, hpath]
  rw [hstep]
  refine ⟨hall, ?_, ?_, ?_, ?_⟩
  · change b.Records _ (s.withCursor odometer).cursor.ahead
      ((s.withCursor odometer).ahead.map Frame.record) _
    rw [Dpor.cursor_withCursor, Dpor.ahead_withCursor]
    exact hahead
  · change ∀ frame ∈ (s.withCursor odometer).ahead, _
    rw [Dpor.ahead_withCursor]
    exact h.rewound
  · change _ = (s.withCursor odometer).path.length
    rw [List.filterMap_append, List.filterMap_cons_none (hquery.operation?_decision value),
      Dpor.length_path_withCursor, List.filterMap_nil, List.append_nil]
    exact h.turns
  · change (s.withCursor odometer).steps + 1 = _
    rw [Dpor.steps_withCursor, h.steps, List.length_append, List.length_singleton]

/-- After a turn a search stands in the frame of the turn. -/
theorem Stands.after_turn {later : List Decision} (h : b.Stands past upcoming s) {frame : Frame}
    {rest path : List Frame} (hlength : path.length = s.path.length)
    {id : OperationId}
    (hall : b.Records [] s.initial.toList
      (({ s with path := frame :: path, ahead := rest } : Dpor γ).turns)
      (past ++ [.operation id] ++ later))
    (hahead : b.Records (past ++ [.operation id]) frame.choices.ahead (rest.map Frame.record) later)
    (hrewound : ∀ frame ∈ rest, frame.choices.passed = []) (random : Option (ReversalMode γ))
    (stats : DporStats) :
    b.Stands (past ++ [.operation id]) later
      ({ s with path := frame :: path, ahead := rest, random, stats } : Dpor γ).step := by
  refine ⟨hall, hahead, hrewound, ?_, ?_⟩
  · rw [List.filterMap_append, List.length_append, h.turns, ← hlength]
    rfl
  · rw [List.length_append, ← h.steps]
    rfl

/-- Nothing is recorded to come if no decision is. -/
theorem Stands.nothing (h : b.Stands past [] s) : s.cursor.ahead = [] ∧ s.ahead = [] := by
  have hahead := h.ahead
  generalize s.cursor.ahead = choices at hahead
  generalize hrecorded : s.ahead.map Frame.record = turns at hahead
  cases hahead
  exact ⟨rfl, List.map_eq_nil_iff.mp hrecorded⟩

variable [RandomSource γ]

/-- A search takes a decision as what is recorded next, if anything is, and stands after it. -/
structure Takes (b : Behaviour ε) (past : List Decision) (decision : Decision)
    (upcoming : List Decision) (s after : Dpor γ) : Prop where
  answer : ∃ current query value, b.next past = .asked current query ∧
    query.decision value = decision ∧ s.Replays query ∧ s.answer current query = (some value, after)
  stands : b.Stands (past ++ [decision]) upcoming after
  maxSteps : after.maxSteps = s.maxSteps

/-- A recorded value is chosen again, and nothing is drawn. -/
theorem Stands.replay_value (h : b.Stands past (query.decision value :: upcoming) s)
    (hnext : b.next past = .asked current query) (hquery : query.IsValue)
    {index : Nat} {choices : List Choice} (hvalue : query.alternatives[index]? = some value)
    (hcursor : s.cursor.ahead = ⟨query.alternatives.length, index⟩ :: choices)
    (hrest : b.Records (past ++ [query.decision value]) choices (s.ahead.map Frame.record) upcoming) :
    ∃ after, b.Takes past (query.decision value) upcoming s after ∧ after.random = s.random := by
  generalize hodometer : (⟨⟨query.alternatives.length, index⟩ :: s.cursor.passed, choices⟩ :
    Odometer) = odometer
  have hanswer : s.answer current query =
      (some value, { s.step.withCursor odometer with random := s.random }) := by
    refine Dpor.answer_of_chooseValue hquery hvalue fun options hoptions => ?_
    rw [← hodometer]
    rw [← hoptions] at hcursor ⊢
    rw [Dpor.chooseValue_of_cons (s := s.step) hcursor]
    cases hpath : s.path <;> simp [Dpor.withCursor, Dpor.cursor, Dpor.step, hpath]
  have hkept : odometer.toList = s.cursor.toList := by
    rw [← hodometer, Odometer.toList, Odometer.toList, hcursor, List.reverse_cons, List.append_assoc,
      List.singleton_append]
  obtain ⟨hinitial, hturns⟩ := Dpor.record_withCursor hkept
  refine ⟨_, ⟨⟨current, query, value, hnext, rfl, ?_, hanswer⟩,
    h.after_value hquery ?_ ?_ s.random, Dpor.maxSteps_withCursor _ _⟩, rfl⟩
  · refine (replays_iff hquery).mpr ⟨fun hnil => ?_, fun choice rest hcons => ?_⟩
    · cases hcursor.symm.trans hnil
    · obtain ⟨rfl, -⟩ := List.cons.inj (hcursor.symm.trans hcons)
      rfl
  · rw [hinitial, hturns, List.append_assoc]
    exact h.all
  · rw [← hodometer]
    exact hrest

/-- A value that is drawn is recorded. -/
theorem Stands.draw_value (h : b.Stands past [] s) (hnext : b.next past = .asked current query)
    (hquery : query.IsValue) {mode : ReversalMode γ} (hrandom : s.random = some mode) :
    ∃ value after source, b.Takes past (query.decision value) [] s after ∧
      after.random = some { mode with source } := by
  obtain ⟨hcursor, hahead⟩ := h.nothing
  have hlength : max query.alternatives.length 1 = query.alternatives.length :=
    Nat.max_eq_left (List.length_pos_iff.mpr hquery.alternatives_ne_nil)
  obtain ⟨index, hindex, source, hchoose⟩ :=
    Dpor.chooseValue_of_nil (s := s.step) hrandom hcursor query.alternatives.length
  rw [hlength] at hindex hchoose
  obtain ⟨value, hvalue⟩ : ∃ value, query.alternatives[index]? = some value :=
    ⟨_, List.getElem?_eq_getElem hindex⟩
  have hanswer : s.answer current query = (some value,
      { s.step.withCursor ⟨⟨query.alternatives.length, index⟩ :: s.cursor.passed, []⟩ with
        random := some { mode with source } }) := by
    refine Dpor.answer_of_chooseValue hquery hvalue fun options hoptions => ?_
    rw [← Dpor.chooseValue_max, hoptions]
    exact hchoose
  refine ⟨value, _, source, ⟨⟨current, query, value, hnext, rfl, ?_, hanswer⟩,
    h.after_value hquery ?_ ?_ _, Dpor.maxSteps_withCursor _ _⟩, rfl⟩
  · refine (replays_iff hquery).mpr ⟨fun _ => hahead, fun choice rest hcons => ?_⟩
    cases hcursor.symm.trans hcons
  · have hall := h.all
    rw [List.append_nil] at hall ⊢
    rcases Dpor.record_withCursor_cons ⟨query.alternatives.length, index⟩ hcursor hahead with
      ⟨hnone, hturns, hinitial⟩ | ⟨earlier, last, hsome, hturns, hinitial⟩
    · rw [hnone] at hall
      exact hturns ▸ hinitial ▸ hall.append_value hnext hquery hvalue
    · rw [hsome] at hall
      exact hturns ▸ hinitial ▸ hall.append_value_turn hnext hquery hvalue
  · rw [hahead]
    exact .nothing _

/-- A recorded turn is given out again, and nothing is drawn. -/
theorem Stands.replay_turn {ops : List Operation} {id : OperationId}
    (h : b.Stands past (.operation id :: upcoming) s)
    (hnext : b.next past = .asked current (.operation ops)) {frame : Frame} {rest : List Frame}
    (hcursor : s.cursor.ahead = []) (hframes : s.ahead = frame :: rest)
    (hshows : frame.record.Shows ops id)
    (hrest : b.Records (past ++ [.operation id]) frame.record.choices (rest.map Frame.record)
      upcoming) :
    ∃ after, b.Takes past (.operation id) upcoming s after ∧ after.random = s.random := by
  obtain ⟨path, hsent, hpath, hlength⟩ := Dpor.exists_recordMatchingSend ops s
  have hselected : frame.selected = some id := hshows.selected
  have henabled : Operation.isEnabledIn ops id = true := by
    simpa [Operation.mem_enabledIds, Operation.isEnabledIn, and_comm] using hshows.isEnabled
  have hreplayed : ({ s with path } : Dpor γ).replayed? ops = some (id, frame, rest) := by
    simp only [Dpor.replayed?, hframes, hselected, henabled, if_true]
  have hanswer : s.answer current (.operation ops) =
      (some id, ({ s with path := frame :: path, ahead := rest } : Dpor γ).step) := by
    simp only [Dpor.answer, Dpor.anyEnabled_of_mem hshows.isEnabled, Bool.not_true,
      Bool.false_eq_true, if_false, hsent, hreplayed]
  have hrewound : frame.choices.passed = [] := h.rewound frame (hframes ▸ List.mem_cons_self)
  refine ⟨_, ⟨⟨current, _, id, hnext, rfl, ⟨hcursor, ?_⟩, hanswer⟩,
    h.after_turn hlength ?_ ?_ ?_ s.random s.stats, rfl⟩, rfl⟩
  · intro first others hcons
    obtain ⟨rfl, -⟩ := List.cons.inj (hframes.symm.trans hcons)
    exact ⟨id, hshows.isEnabled, hselected⟩
  · have hturns : ({ s with path := frame :: path, ahead := rest } : Dpor γ).turns = s.turns := by
      simp [Dpor.turns, Dpor.frames, hframes, hpath]
    rw [hturns, List.append_assoc]
    exact h.all
  · have hchoices : frame.record.choices = frame.choices.ahead := by
      rw [Frame.record, Odometer.toList, hrewound]
      rfl
    exact hchoices ▸ hrest
  · exact fun other hother => h.rewound other (hframes ▸ List.mem_cons_of_mem _ hother)

/-- A decision that is recorded next is replayed, and nothing is drawn. -/
theorem Stands.exists_replayed (h : b.Stands past (decision :: upcoming) s) :
    ∃ after, b.Takes past decision upcoming s after ∧ after.random = s.random := by
  have hahead := h.ahead
  generalize hcursor : s.cursor.ahead = choices at hahead
  generalize hrecorded : s.ahead.map Frame.record = turns at hahead
  cases hahead with
  | value hnext hquery hvalue hrest =>
    exact h.replay_value hnext hquery hvalue hcursor (hrecorded ▸ hrest)
  | turn hnext hshows hrest =>
    obtain ⟨frame, rest, hframes, rfl, rfl⟩ := List.map_eq_cons_iff.mp hrecorded
    exact h.replay_turn hnext hcursor hframes hshows hrest

/-- There is only one decision that a search takes. -/
theorem Takes.unique {after between : Dpor γ} (h : b.Takes past decision upcoming s after)
    (hnext : b.next past = .asked current query)
    (hanswer : Explorer.answer current query s = (some value, between)) :
    query.decision value = decision ∧ between = after := by
  obtain ⟨current', query', value', hnext', rfl, -, hanswer'⟩ := h.answer
  obtain ⟨rfl, rfl⟩ := Event.asked.inj (hnext.symm.trans hnext')
  obtain ⟨hvalue, rfl⟩ := Prod.mk.inj (hanswer.symm.trans hanswer')
  obtain rfl := Option.some.inj hvalue
  exact ⟨rfl, rfl⟩

section Draws

variable (hdraws : ∀ (bound : Nat) (source : γ), 0 < bound →
  (RandomSource.nextBounded bound source).1 < bound)

include hdraws

/-- A turn that is drawn is recorded. -/
theorem Stands.draw_turn {ops : List Operation} (h : b.Stands past [] s)
    (hnext : b.next past = .asked current (.operation ops)) {mode : ReversalMode γ}
    (hrandom : s.random = some mode) :
    ∃ id after source, b.Takes past (.operation id) [] s after ∧
      after.random = some { mode with source } := by
  obtain ⟨hcursor, hahead⟩ := h.nothing
  obtain ⟨path, hsent, hpath, hlength⟩ := Dpor.exists_recordMatchingSend ops s
  obtain ⟨id, frame, source, stats, hshows, hchoices, hpush⟩ :=
    Dpor.exists_pushFrame (s := { s with path, ahead := [] }) hdraws hrandom current
      (b.alternatives_ne_nil hnext)
  have hreplayed : ({ s with path } : Dpor γ).replayed? ops = none := by
    simp only [Dpor.replayed?, hahead]
  have hanswer : s.answer current (.operation ops) = (some id,
      ({ s with path := frame :: path, ahead := [], random := some { mode with source }, stats } :
        Dpor γ).step) := by
    simp only [Dpor.answer, Dpor.anyEnabled_of_mem hshows.isEnabled, Bool.not_true,
      Bool.false_eq_true, if_false, hsent, hreplayed, hpush]
  refine ⟨id, _, source, ⟨⟨current, _, id, hnext, rfl, ⟨hcursor, ?_⟩, hanswer⟩,
    h.after_turn hlength ?_ ?_ ?_ _ stats, rfl⟩, rfl⟩
  · intro first others hcons
    cases hahead.symm.trans hcons
  · have hturns : ({ s with path := frame :: path, ahead := [] } : Dpor γ).turns =
        s.turns ++ [frame.record] := by
      simp [Dpor.turns, Dpor.frames, hahead, hpath]
    have hnone : frame.record.choices = [] := by
      rw [Frame.record, hchoices]
      rfl
    have hall := h.all
    rw [List.append_nil] at hall ⊢
    rw [hturns]
    exact hall.append_turn hnext hshows hnone
  · rw [hchoices]
    exact .nothing _
  · exact fun other hother => absurd hother List.not_mem_nil

/-- Where nothing more is recorded, a random search draws a decision and records it. -/
theorem Stands.exists_drawn (h : b.Stands past [] s)
    (hnext : b.next past = .asked current query) {mode : ReversalMode γ}
    (hrandom : s.random = some mode) :
    ∃ decision after source, b.Takes past decision [] s after ∧
      after.random = some { mode with source } := by
  by_cases hquery : query.IsValue
  · obtain ⟨value, after, source, htakes, hsource⟩ := h.draw_value hnext hquery hrandom
    exact ⟨_, after, source, htakes, hsource⟩
  · cases query with
    | operation ops =>
      obtain ⟨id, after, source, htakes, hsource⟩ := h.draw_turn hdraws hnext hrandom
      exact ⟨_, after, source, htakes, hsource⟩
    | boolean => exact absurd trivial hquery
    | integer => exact absurd trivial hquery

/-- Where a random search stands it takes the next decision. -/
theorem Stands.exists_takes (h : b.Stands past upcoming s)
    (hnext : b.next past = .asked current query) {mode : ReversalMode γ}
    (hrandom : s.random = some mode) :
    ∃ decision later after source, b.Takes past decision later s after ∧
      after.random = some { mode with source } := by
  cases upcoming with
  | nil =>
    obtain ⟨decision, after, source, htakes, hsource⟩ := h.exists_drawn hdraws hnext hrandom
    exact ⟨decision, [], after, source, htakes, hsource⟩
  | cons decision upcoming =>
    obtain ⟨after, htakes, hsame⟩ := h.exists_replayed
    exact ⟨decision, upcoming, after, mode.source, htakes, hsame.trans hrandom⟩

/-- What is asked where a random search stands is what is recorded next, if anything is. -/
theorem Stands.replays (h : b.Stands past upcoming s)
    (hnext : b.next past = .asked current query) {mode : ReversalMode γ}
    (hrandom : s.random = some mode) : s.Replays query := by
  obtain ⟨decision, later, after, source, htakes, -⟩ := h.exists_takes hdraws hnext hrandom
  obtain ⟨current', query', value, hnext', -, hreplays, -⟩ := htakes.answer
  obtain ⟨rfl, rfl⟩ := Event.asked.inj (hnext.symm.trans hnext')
  exact hreplays

/-- Wherever a random search comes in its walk, it stands. -/
theorem Stands.of_comes {later : List Decision} {after : Dpor γ}
    (h : b.Stands past upcoming s) {mode : ReversalMode γ} (hrandom : s.random = some mode)
    (hcomes : b.Comes past s later after) :
    ∃ left source, b.Stands later left after ∧ after.random = some { mode with source } ∧
      after.maxSteps = s.maxSteps := by
  induction hcomes generalizing upcoming mode with
  | here past s => exact ⟨upcoming, mode.source, h, hrandom, rfl⟩
  | answered hnext _ hanswer _ ih =>
    obtain ⟨decision, next, taken, source, htakes, hsource⟩ := h.exists_takes hdraws hnext hrandom
    obtain ⟨rfl, rfl⟩ := htakes.unique hnext hanswer
    obtain ⟨left, source', hstands, hmode, hmaxSteps⟩ := ih htakes.stands hsource
    exact ⟨left, source', hstands, hmode, hmaxSteps.trans htakes.maxSteps⟩

end Draws

/-- A search may go on if it has no step bound or has not reached it. -/
theorem atBound_eq_false :
    Explorer.atBound s = false ↔ s.maxSteps = 0 ∨ s.steps < s.maxSteps := by
  change s.clock.atBound = false ↔ _
  rw [Bool.eq_false_iff, Ne, Clock.atBound_iff]
  change ¬ (0 < s.maxSteps ∧ s.maxSteps ≤ s.steps) ↔ _
  omega

/-- A search comes to no more decisions than its step bound allows. -/
theorem Comes.length_le {later : List Decision} {after : Dpor γ} (hcomes : b.Comes past s later after)
    (hclock : s.steps = past.length) (hbound : s.maxSteps = 0 ∨ past.length ≤ s.maxSteps) :
    s.maxSteps = 0 ∨ later.length ≤ s.maxSteps := by
  induction hcomes with
  | here => exact hbound
  | @answered past later s between after current query value hnext hfree hanswer _ ih =>
    have hstart : s.clock = ⟨past.length, s.maxSteps⟩ := by rw [Dpor.clock, hclock]
    have htime := keepsTime_dpor.of_answer hstart hanswer
    obtain ⟨hsteps, hsame⟩ := Clock.mk.inj htime
    rw [hsame] at ih
    have hopen := atBound_eq_false.mp hfree
    refine ih hsteps ?_
    rw [List.length_append, List.length_singleton]
    omega

/-- A search comes to what is recorded, as far as its step bound allows, and draws nothing on the
way. -/
theorem Stands.comes {first rest : List Decision} (h : b.Stands past (first ++ rest) s)
    (hbound : s.maxSteps = 0 ∨ (past ++ first).length ≤ s.maxSteps) :
    ∃ after, b.Comes past s (past ++ first) after ∧ b.Stands (past ++ first) rest after ∧
      after.random = s.random := by
  induction first generalizing past s with
  | nil =>
    rw [List.append_nil]
    exact ⟨s, .here past s, h, rfl⟩
  | cons decision first ih =>
    obtain ⟨between, htakes, hsame⟩ := h.exists_replayed
    have hlonger : past ++ decision :: first = past ++ [decision] ++ first := List.append_cons _ _ _
    rw [hlonger] at hbound ⊢
    obtain ⟨after, hcomes, hstands, hrandom⟩ := ih htakes.stands (htakes.maxSteps ▸ hbound)
    obtain ⟨current, query, value, hnext, rfl, -, hanswer⟩ := htakes.answer
    have hfree : Explorer.atBound s = false := by
      rw [atBound_eq_false, h.steps]
      simp only [List.length_append, List.length_singleton] at hbound
      omega
    exact ⟨after, .answered hnext hfree hanswer hcomes, hstands, hrandom.trans hsame⟩

end Behaviour

end ScheduleExplorer
