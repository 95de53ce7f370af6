import ScheduleExplorer.Dpor.Search
import ScheduleExplorer.Proofs.Strategy.Walks
import ScheduleExplorer.Strategy.DepthFirst

/-!
# Searches answer faithfully

Depth-first search and partial-order reduction record the values they have chosen in odometers. As
long as every recorded choice is one of its options, what they replay is a possible answer; answering
and preparing keep the records that way. The operations that partial-order reduction replays are
checked when they are replayed, so nothing need be known about them.
-/

namespace ScheduleExplorer

namespace Odometer

/-- Every recorded choice is one of its options. -/
def InRange (odometer : Odometer) : Prop :=
  ∀ choice ∈ odometer.passed ++ odometer.ahead, choice.index < choice.options

/-- An odometer without choices is in range. -/
theorem inRange_empty : ({} : Odometer).InRange :=
  fun _ hchoice => absurd hchoice List.not_mem_nil

/-- An option that is recorded for a number of options is one of them. -/
theorem InRange.lt_of_recorded? {odometer : Odometer} (h : odometer.InRange)
    {options index : Nat} (hrecorded : odometer.recorded? options = some index) :
    index < options := by
  rw [recorded?] at hrecorded
  split at hrecorded
  · next choice rest hahead =>
    split at hrecorded
    · next hoptions =>
      obtain rfl := Option.some.inj hrecorded
      subst hoptions
      exact h choice (by simp [hahead])
    · cases hrecorded
  · cases hrecorded

/-- Taking the choice at the cursor takes one of the options and records it. -/
theorem InRange.next {odometer : Odometer} (h : odometer.InRange) {options fresh : Nat}
    (hfresh : fresh < options) :
    (odometer.next options fresh).1 < options ∧ (odometer.next options fresh).2.InRange := by
  have hpassed : ∀ choice ∈ odometer.passed, choice.index < choice.options :=
    fun choice hchoice => h choice (List.mem_append_left _ hchoice)
  rw [Odometer.next]
  split
  · next index hrecorded =>
    have hlt := h.lt_of_recorded? hrecorded
    refine ⟨hlt, fun choice hchoice => ?_⟩
    rcases List.mem_append.mp hchoice with hcons | hrest
    · rcases List.mem_cons.mp hcons with rfl | hold
      · exact hlt
      · exact hpassed choice hold
    · exact h choice (List.mem_append_right _ (List.mem_of_mem_tail hrest))
  · refine ⟨hfresh, fun choice hchoice => ?_⟩
    rw [List.append_nil] at hchoice
    rcases List.mem_cons.mp hchoice with rfl | hold
    · exact hfresh
    · exact hpassed choice hold

/-- Drawing a choice takes one of the options and records it, whatever is drawn. -/
theorem InRange.draw {odometer : Odometer} (h : odometer.InRange) {σ : Type} (options : Nat)
    (fresh : Nat → σ → Nat × σ) (state : σ) :
    (odometer.draw options fresh state).1 < max options 1 ∧
      (odometer.draw options fresh state).2.1.InRange := by
  have hpos : 0 < max options 1 := Nat.lt_of_lt_of_le Nat.one_pos (Nat.le_max_right options 1)
  rw [Odometer.draw]
  split
  · exact h.next hpos
  · exact h.next (by omega)

/-- Going back to the first choice keeps the record. -/
theorem InRange.rewind {odometer : Odometer} (h : odometer.InRange) : odometer.rewind.InRange := by
  intro choice hchoice
  refine h choice ?_
  simpa [Odometer.rewind, toList] using hchoice

/-- Dropping choices keeps the record in range. -/
theorem InRange.truncate {odometer : Odometer} (h : odometer.InRange) :
    odometer.truncate.InRange := by
  intro choice hchoice
  refine h choice (List.mem_append_left _ ?_)
  simpa [Odometer.truncate] using hchoice

/-- An option is tried next only if there is one. -/
theorem advanceReversed_inRange (choices : List Choice)
    (h : ∀ choice ∈ choices, choice.index < choice.options) :
    ∀ choice ∈ advanceReversed choices, choice.index < choice.options := by
  induction choices with
  | nil => exact h
  | cons last earlier ih =>
    have hearlier : ∀ choice ∈ earlier, choice.index < choice.options :=
      fun choice hchoice => h choice (List.mem_cons_of_mem _ hchoice)
    rw [advanceReversed]
    split
    · next huntried =>
      intro choice hchoice
      rcases List.mem_cons.mp hchoice with rfl | hold
      · exact of_decide_eq_true huntried
      · exact hearlier choice hold
    · exact ih hearlier

/-- Moving on keeps the record in range. -/
theorem InRange.advance {odometer : Odometer} (h : odometer.InRange) :
    odometer.advance.InRange := by
  intro choice hchoice
  refine advanceReversed_inRange odometer.toList.reverse (fun choice hold => ?_) choice
    (by simpa [Odometer.advance] using hchoice)
  exact h choice (by simpa [toList, or_comm] using hold)

end Odometer

namespace DepthFirst

/-- The clock of a depth-first search. -/
def clock (s : DepthFirst) : Clock :=
  ⟨s.steps, s.maxSteps⟩

/-- Depth-first search answers faithfully and keeps its record in range. -/
theorem answered (query : Query) {s : DepthFirst} (h : s.odometer.InRange) :
    query.Answered s.clock (s.answer query).1 (s.answer query).2.clock ∧
      (s.answer query).2.odometer.InRange := by
  cases query with
  | operation ops =>
    by_cases hempty : Operation.enabledIds ops = []
    · simp only [answer, hempty, List.isEmpty_nil, if_true]
      exact ⟨.empty hempty, h⟩
    · obtain ⟨hlt, hnext⟩ := h.next (List.length_pos_of_ne_nil hempty)
      simp only [answer, choose, List.isEmpty_iff, hempty, if_false]
      rw [List.getElem?_eq_getElem hlt]
      exact ⟨.some (List.getElem_mem hlt) rfl, hnext⟩
  | boolean bound =>
    exact ⟨.some (Query.mem_alternatives_boolean _ _) rfl, (h.next Nat.two_pos).2⟩
  | integer bound =>
    obtain ⟨hlt, hnext⟩ :=
      h.next (Nat.lt_of_lt_of_le Nat.one_pos (Nat.le_max_right bound 1))
    exact ⟨.some (Query.mem_alternatives_integer.mpr hlt) rfl, hnext⟩

/-- Preparing begins a new iteration and keeps the record in range. -/
theorem prepare_spec {s : DepthFirst} (h : s.odometer.InRange) :
    s.prepare.2.odometer.InRange ∧ s.prepare.2.clock = s.clock.restart :=
  ⟨h.truncate.advance, rfl⟩

end DepthFirst

/-! ### Partial-order reduction -/

namespace Frame

/-- Entering an operation adds it if it is enabled. -/
theorem contains_enabled_enter (frame : Frame) (op : Operation) (id : OperationId) :
    (frame.enter op).enabled.contains id = true ↔
      frame.enabled.contains id = true ∨ (op.isEnabled = true ∧ op.id = id) := by
  by_cases hop : op.isEnabled <;> by_cases hdone : op.status.isCompleted <;>
    simp [enter, hop, hdone]

/-- Entering an operation chooses no value. -/
theorem choices_enter (frame : Frame) (op : Operation) : (frame.enter op).choices = frame.choices := by
  by_cases hop : op.isEnabled <;> by_cases hdone : op.status.isCompleted <;>
    simp [enter, hop, hdone]

/-- Entering the operations of a table adds those that are enabled. -/
theorem contains_enabled_foldl_enter (ops : List Operation) (frame : Frame) (id : OperationId) :
    (ops.foldl enter frame).enabled.contains id = true ↔
      frame.enabled.contains id = true ∨ id ∈ Operation.enabledIds ops := by
  rw [Operation.mem_enabledIds]
  induction ops generalizing frame with
  | nil => simp
  | cons op rest ih =>
    rw [List.foldl_cons, ih, contains_enabled_enter, or_assoc]
    simp

/-- A captured frame holds the enabled operations of its table. -/
@[simp] theorem contains_enabled_capture {ops : List Operation} {id : OperationId} :
    (capture ops).enabled.contains id = true ↔ id ∈ Operation.enabledIds ops := by
  rw [capture, contains_enabled_foldl_enter]
  simp [OpSet.contains]

/-- A captured frame holds no values. -/
@[simp] theorem choices_capture (ops : List Operation) : (capture ops).choices = {} := by
  have hfold (rest : List Operation) (frame : Frame) :
      (rest.foldl enter frame).choices = frame.choices := by
    induction rest generalizing frame with
    | nil => rfl
    | cons op rest ih => rw [List.foldl_cons, ih, choices_enter]
  exact hfold ops _

end Frame

variable {γ : Type} [RandomSource γ]

namespace Dpor

/-- The clock of a partial-order search. -/
def clock (s : Dpor γ) : Clock :=
  ⟨s.steps, s.maxSteps⟩

/-- Every value recorded in a frame, or before the first one, is one of its options. -/
structure InRange (s : Dpor γ) : Prop where
  initial : s.initial.InRange
  frames : ∀ frame ∈ s.path ++ s.ahead, frame.choices.InRange

/-- Picking changes only the source of the random mode. -/
theorem pick_eq (hdraws : ∀ (bound : Nat) (source : γ), 0 < bound →
      (RandomSource.nextBounded bound source).1 < bound)
    {candidates : OpSet} (hne : candidates.isEmpty = false) (current : OperationId) (s : Dpor γ) :
    ∃ id, candidates.contains id = true ∧ ∃ random,
      s.pick current candidates = (some id, { s with random }) := by
  have hsome : candidates.toList ≠ [] := by
    intro hnil
    have hempty : candidates.isEmpty = true := OpSet.isEmpty_iff.mpr fun id => by
      rw [Bool.eq_false_iff, Ne, ← OpSet.mem_toList, hnil]
      exact List.not_mem_nil
    rw [hempty] at hne
    cases hne
  rw [pick]
  cases hrandom : s.random with
  | some mode =>
    have hlt := hdraws candidates.toList.length mode.source
      (List.length_pos_of_ne_nil hsome)
    simp only [List.isEmpty_iff, hsome, if_false]
    rw [List.getElem?_eq_getElem hlt]
    exact ⟨_, OpSet.mem_toList.mp (List.getElem_mem hlt), _, rfl⟩
  | none =>
    cases hfind : candidates.toList.find? fun id => current.index ≤ id.index with
    | some id =>
      refine ⟨id, OpSet.mem_toList.mp (List.mem_of_find?_eq_some hfind), s.random, ?_⟩
      simp only [Option.orElse_some]
    | none =>
      obtain ⟨id, rest, hcons⟩ := List.exists_cons_of_ne_nil hsome
      refine ⟨id, OpSet.mem_toList.mp (hcons ▸ List.mem_cons_self), s.random, ?_⟩
      simp only [Option.orElse_none, hcons, List.head?_cons]

/-- Where something is enabled, a new frame selects an enabled operation. -/
theorem pushFrame_eq (hdraws : ∀ (bound : Nat) (source : γ), 0 < bound →
      (RandomSource.nextBounded bound source).1 < bound)
    {ops : List Operation} (hne : Operation.enabledIds ops ≠ []) (current : Operation) (s : Dpor γ) :
    ∃ id ∈ Operation.enabledIds ops, ∃ frame random stats, frame.choices = {} ∧
      s.pushFrame current ops =
        (some id, { s with path := frame :: s.path, random, stats }) := by
  rw [pushFrame]
  dsimp only
  have henabled : (Frame.capture ops).enabled.isEmpty = false := by
    rw [Bool.eq_false_iff, Ne, OpSet.isEmpty_iff]
    intro hnone
    obtain ⟨id, rest, hcons⟩ := List.exists_cons_of_ne_nil hne
    have hmem : (Frame.capture ops).enabled.contains id = true :=
      Frame.contains_enabled_capture.mpr (hcons ▸ List.mem_cons_self)
    rw [hnone id] at hmem
    cases hmem
  generalize hframe : ({ Frame.capture ops with
    sleep := (s.path.head?.map Frame.inheritedSleep).getD {} } : Frame) = frame
  have hawake : ∀ id, frame.awake.contains id = true →
      (Frame.capture ops).enabled.contains id = true := by
    intro id hid
    rw [Frame.awake, OpSet.contains_difference, Bool.and_eq_true, ← hframe] at hid
    exact hid.1
  generalize hstart : (if frame.awake.isEmpty = true then
    { s with stats := { s.stats with sleepBlocked := s.stats.sleepBlocked + 1 } } else s) = start
  have hsame : ∃ stats, start = { s with stats } := by
    rw [← hstart]
    split
    · exact ⟨_, rfl⟩
    · exact ⟨s.stats, rfl⟩
  obtain ⟨stats, rfl⟩ := hsame
  generalize hcandidates : (if frame.awake.isEmpty = true then (Frame.capture ops).enabled
    else frame.awake) = candidates
  have hchosen : candidates.isEmpty = false ∧
      ∀ id, candidates.contains id = true → (Frame.capture ops).enabled.contains id = true := by
    rw [← hcandidates]
    split
    · exact ⟨henabled, fun _ => id⟩
    · next hsome => exact ⟨Bool.eq_false_iff.mpr hsome, hawake⟩
  obtain ⟨id, hid, random, hpick⟩ := pick_eq hdraws hchosen.1 current.id { s with stats }
  rw [hpick]
  dsimp only
  refine ⟨id, Frame.contains_enabled_capture.mp (hchosen.2 id hid), _, random, _, ?_, rfl⟩
  exact Frame.choices_capture ops

omit [RandomSource γ] in
/-- Recording a send touches no value. -/
theorem recordMatchingSend_spec (ops : List Operation) {s : Dpor γ} (h : s.InRange) :
    (s.recordMatchingSend ops).InRange ∧ (s.recordMatchingSend ops).clock = s.clock := by
  rw [recordMatchingSend]
  split
  · exact ⟨h, rfl⟩
  · next frame earlier hpath =>
    dsimp only
    split
    · refine ⟨⟨h.initial, fun other hother => ?_⟩, rfl⟩
      rcases List.mem_cons.mp hother with rfl | hrest
      · exact h.frames frame (by simp [hpath])
      · refine h.frames other ?_
        rw [hpath]
        exact List.mem_cons_of_mem _ hrest
    · exact ⟨h, rfl⟩

omit [RandomSource γ] in
/-- A replayed operation is enabled, and its frame is the next one. -/
theorem replayed?_eq_some {ops : List Operation} {s : Dpor γ} {id : OperationId} {frame : Frame}
    {rest : List Frame} (h : s.replayed? ops = some (id, frame, rest)) :
    id ∈ Operation.enabledIds ops ∧ s.ahead = frame :: rest := by
  rw [replayed?] at h
  split at h
  · next first later hahead =>
    split at h
    · next selected hselected =>
      split at h
      · next henabled =>
        simp only [Option.some.injEq, Prod.mk.injEq] at h
        obtain ⟨rfl, rfl, rfl⟩ := h
        refine ⟨?_, hahead⟩
        rw [Operation.mem_enabledIds]
        simpa [Operation.isEnabledIn, and_comm] using henabled
      · cases h
    · cases h
  · cases h

/-- Choosing a value takes one of the options and records it. -/
theorem chooseValue_spec (options : Nat) {s : Dpor γ} (h : s.InRange) :
    (s.chooseValue options).1 < max options 1 ∧ (s.chooseValue options).2.InRange ∧
      (s.chooseValue options).2.clock = s.clock := by
  rw [chooseValue]
  split
  · next frame earlier hpath =>
    obtain ⟨hlt, hdraw⟩ :=
      (h.frames frame (by simp [hpath])).draw options freshValue s.random
    refine ⟨hlt, ⟨h.initial, fun other hother => ?_⟩, rfl⟩
    rcases List.mem_cons.mp hother with rfl | hrest
    · exact hdraw
    · refine h.frames other ?_
      rw [hpath]
      exact List.mem_cons_of_mem _ hrest
  · next hpath =>
    obtain ⟨hlt, hdraw⟩ := h.initial.draw options freshValue s.random
    exact ⟨hlt, ⟨hdraw, h.frames⟩, rfl⟩

/-- Partial-order reduction answers faithfully and keeps its record in range. -/
theorem answered [BoundedRandomSource γ] (current : Operation) (query : Query) {s : Dpor γ}
    (h : s.InRange) :
    query.Answered s.clock (s.answer current query).1 (s.answer current query).2.clock ∧
      (s.answer current query).2.InRange := by
  cases query with
  | operation ops =>
    by_cases hempty : Operation.enabledIds ops = []
    · have hnone : Operation.anyEnabled ops = false := by
        simpa [Operation.anyEnabled, Operation.enabledIds] using hempty
      simp only [answer, hnone, Bool.not_false, if_true]
      exact ⟨.empty hempty, h⟩
    · have hsome : Operation.anyEnabled ops = true := by
        simpa [Operation.anyEnabled, Operation.enabledIds] using hempty
      obtain ⟨hsent, hclock⟩ := recordMatchingSend_spec ops h
      simp only [answer, hsome, Bool.not_true, Bool.false_eq_true, if_false]
      generalize s.recordMatchingSend ops = sent at hsent hclock
      split
      · next id frame rest hreplayed =>
        obtain ⟨hid, hahead⟩ := replayed?_eq_some hreplayed
        refine ⟨.some hid (by rw [← hclock]; rfl), hsent.initial, fun other hother => ?_⟩
        refine hsent.frames other ?_
        rw [hahead]
        simpa [step, or_left_comm] using hother
      · obtain ⟨id, hid, frame, random, stats, hchoices, hpush⟩ :=
          pushFrame_eq BoundedRandomSource.nextBounded_lt hempty current { sent with ahead := [] }
        rw [hpush]
        refine ⟨.some hid (by rw [← hclock]; rfl), hsent.initial, fun other hother => ?_⟩
        have hpath : other ∈ (frame :: sent.path) ++ [] := hother
        rw [List.append_nil] at hpath
        rcases List.mem_cons.mp hpath with rfl | hold
        · rw [hchoices]
          exact Odometer.inRange_empty
        · exact hsent.frames other (List.mem_append_left _ hold)
  | boolean bound =>
    obtain ⟨-, hkept, hclock⟩ := chooseValue_spec 2 (s := s.step) ⟨h.initial, h.frames⟩
    exact ⟨.some (Query.mem_alternatives_boolean _ _) hclock, hkept⟩
  | integer bound =>
    obtain ⟨hlt, hkept, hclock⟩ := chooseValue_spec (max bound 1) (s := s.step)
      ⟨h.initial, h.frames⟩
    refine ⟨.some (Query.mem_alternatives_integer.mpr ?_) hclock, hkept⟩
    rwa [Nat.max_assoc, Nat.max_self] at hlt

omit [RandomSource γ] in
/-- Races touch no value. -/
theorem addRaces_inRange (races : List Race) {frames : List Frame}
    (h : ∀ frame ∈ frames, frame.choices.InRange) :
    ∀ frame ∈ addRaces races frames, frame.choices.InRange := by
  have hbacktrack (op : OperationId) (frame : Frame) :
      (addBacktrack op frame).choices = frame.choices := by
    rw [addBacktrack]
    split <;> rfl
  rw [addRaces]
  induction races generalizing frames with
  | nil => exact h
  | cons race rest ih =>
    rw [List.foldl_cons]
    refine ih fun frame hframe => ?_
    obtain ⟨index, hindex⟩ := List.mem_iff_getElem?.mp hframe
    rw [List.getElem?_modify, Option.map_eq_map, Option.map_eq_some_iff] at hindex
    obtain ⟨old, hold, rfl⟩ := hindex
    have hinRange := h old (List.mem_of_getElem? hold)
    split
    · rwa [hbacktrack]
    · exact hinRange

omit [RandomSource γ] in
/-- Moving on to the next value or operation keeps every value in range. -/
theorem rewindFrames_inRange {frames : List Frame} (h : ∀ frame ∈ frames, frame.choices.InRange) :
    ∀ frame ∈ (rewindFrames frames).2, frame.choices.InRange := by
  induction frames with
  | nil => exact h
  | cons last earlier ih =>
    have hearlier : ∀ frame ∈ earlier, frame.choices.InRange :=
      fun frame hframe => h frame (List.mem_cons_of_mem _ hframe)
    rw [rewindFrames]
    dsimp only
    split
    · intro frame hframe
      rcases List.mem_cons.mp hframe with rfl | hold
      · exact (h last List.mem_cons_self).advance
      · exact hearlier frame hold
    · split
      · intro frame hframe
        rcases List.mem_cons.mp hframe with rfl | hold
        · exact Odometer.inRange_empty
        · exact hearlier frame hold
      · exact ih hearlier

omit [RandomSource γ] in
/-- A search is restarted with the values that its frames hold. -/
theorem restart_spec {frames : List Frame} {s : Dpor γ} (hinitial : s.initial.InRange)
    (h : ∀ frame ∈ frames, frame.choices.InRange) :
    (s.restart frames).InRange ∧ (s.restart frames).clock = s.clock.restart := by
  refine ⟨⟨hinitial.rewind, fun frame hframe => ?_⟩, rfl⟩
  obtain ⟨old, hold, rfl⟩ := List.mem_map.mp hframe
  exact (h old hold).rewind

/-- Reversing a race keeps every value in range. -/
theorem prepareRandom_spec (races : List Race) (mode : ReversalMode γ) {s : Dpor γ}
    (h : s.InRange) (hahead : s.ahead = []) :
    (s.prepareRandom races mode).InRange ∧
      (s.prepareRandom races mode).clock = s.clock.restart := by
  have hframes : ∀ frame ∈ s.frames, frame.choices.InRange := fun frame hframe =>
    h.frames frame (by simpa [frames, hahead] using hframe)
  rw [prepareRandom]
  dsimp only
  split
  · exact restart_spec Odometer.inRange_empty fun _ hframe => absurd hframe List.not_mem_nil
  · have hkept (length : Nat) : ∀ frame ∈ s.frames.take length, frame.choices.InRange :=
      fun frame hframe => hframes frame (List.mem_of_mem_take hframe)
    refine restart_spec h.initial ?_
    split
    · next top htop =>
      split
      · intro frame hframe
        rcases List.mem_append.mp hframe with hdropped | htop'
        · exact hkept _ frame (List.dropLast_subset _ hdropped)
        · rw [List.mem_singleton.mp htop']
          exact Odometer.inRange_empty
      · exact hkept _
    · exact hkept _

/-- Preparing begins a new iteration. -/
theorem clock_prepare (s : Dpor γ) : s.prepare.2.clock = s.clock.restart := by
  rw [prepare]
  dsimp only
  split
  · rw [prepareRandom]
    dsimp only
    split <;> rfl
  · rw [prepareExhaustive]
    dsimp only
    split <;> rfl

/-- Preparing begins a new iteration and keeps every value in range. -/
theorem prepare_spec {s : Dpor γ} (h : s.InRange) :
    s.prepare.2.InRange ∧ s.prepare.2.clock = s.clock.restart := by
  have hpassed : ({ s with ahead := [] } : Dpor γ).InRange := by
    refine ⟨h.initial, fun frame hframe => h.frames frame ?_⟩
    rw [List.append_nil] at hframe
    exact List.mem_append_left _ hframe
  rw [prepare]
  dsimp only
  split
  · exact prepareRandom_spec _ _ ⟨hpassed.initial, hpassed.frames⟩ rfl
  · rw [prepareExhaustive]
    dsimp only
    split
    · exact restart_spec h.initial.advance fun _ hframe => absurd hframe List.not_mem_nil
    · refine restart_spec h.initial fun frame hframe => ?_
      refine rewindFrames_inRange (fun other hother => ?_) frame (List.mem_reverse.mp hframe)
      refine addRaces_inRange _ (fun old hold => ?_) other (List.mem_reverse.mp hother)
      exact hpassed.frames old (by simpa [frames] using hold)

end Dpor

end ScheduleExplorer
