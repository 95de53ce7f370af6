import ScheduleExplorer.Proofs.Execution.Orderly
import ScheduleExplorer.Proofs.Strategy.Searches

/-!
# What a search notes of sends

Each frame of a search is marked with the operation that was selected in it and with the send that
this operation has received from. The mark is made when the frame is entered, from the path of the
iteration before or from the table of operations, and it may be made anew once: when the search is
asked for the next turn, from what the operation has received by then. After that the mark stays.
-/

namespace ScheduleExplorer

variable {γ : Type} [RandomSource γ]

/-- The operation selected in a frame, and the send that it has received from. -/
def Frame.mark (frame : Frame) : Option OperationId × Option Nat :=
  (frame.selected, frame.matchingSend)

/-- The step of a frame is that of the operation selected in it. -/
theorem Frame.selected_of_selectedStep? {frame : Frame} {id : OperationId} {step : PendingStep}
    (h : frame.selectedStep? = some (id, step)) : frame.selected = some id := by
  simp only [selectedStep?, Option.bind_eq_bind, Option.bind_eq_some_iff, Option.pure_def,
    Option.some.injEq, Prod.mk.injEq] at h
  obtain ⟨selected, hselected, -, -, rfl, -⟩ := h
  exact hselected

/-- The send that an operation of a table has last received from. -/
def Operation.sendOf? (ops : List Operation) (id : OperationId) : Option Nat :=
  (ops.find? fun op => op.id = id).bind (·.matchingSend)

/-- The operation that is selected in the frame at a position of a path. -/
def selectedIn? (frames : List Frame) (index : Nat) : Option OperationId :=
  (frames[index]?).bind (·.selected)

namespace Dpor

/-- The send with which the frame at a position of the path is marked. -/
def sendAt? (index : Nat) (s : Dpor γ) : Option Nat :=
  (s.path.reverse[index]?).bind (·.matchingSend)

/-- The marks of the frames that the iteration has passed, last first. -/
def marks (s : Dpor γ) : List (Option OperationId × Option Nat) :=
  s.path.map Frame.mark

/-- Makes the last mark anew from a table of operations. -/
def remark (ops : List Operation) :
    List (Option OperationId × Option Nat) → List (Option OperationId × Option Nat)
  | [] => []
  | (selected, send) :: earlier =>
    (selected, (selected.bind (Operation.sendOf? ops)).orElse fun _ => send) :: earlier

/-- Noting a send leaves the number of marks alone. -/
@[simp] theorem length_remark (ops : List Operation)
    (marks : List (Option OperationId × Option Nat)) : (remark ops marks).length = marks.length := by
  cases marks <;> rfl

/-- Noting a send leaves the selected operations alone. -/
@[simp] theorem map_fst_remark (ops : List Operation)
    (marks : List (Option OperationId × Option Nat)) :
    (remark ops marks).map Prod.fst = marks.map Prod.fst := by
  cases marks <;> rfl

/-- Only the last mark is made anew. -/
theorem getElem?_reverse_remark (ops : List Operation)
    (marks : List (Option OperationId × Option Nat)) {index : Nat}
    (hindex : index + 1 < marks.length) :
    (remark ops marks).reverse[index]? = marks.reverse[index]? := by
  cases marks with
  | nil => rfl
  | cons mark earlier =>
    have hlt : index < earlier.reverse.length := by
      rw [List.length_reverse]
      exact Nat.lt_of_succ_lt_succ hindex
    rw [remark, List.reverse_cons, List.reverse_cons, List.getElem?_append_left hlt,
      List.getElem?_append_left hlt]

omit [RandomSource γ] in
/-- Recording the matching send notes it in the last mark, and leaves what is recorded ahead alone. -/
theorem marks_recordMatchingSend (ops : List Operation) (s : Dpor γ) :
    (s.recordMatchingSend ops).marks = remark ops s.marks ∧
      (s.recordMatchingSend ops).ahead = s.ahead := by
  have hsend (frame : Frame) : (do
      let selected ← frame.selected
      let op ← ops.find? fun op => op.id = selected
      op.matchingSend) = frame.selected.bind (Operation.sendOf? ops) := rfl
  rw [recordMatchingSend]
  split
  · next hpath =>
    rw [marks, hpath]
    exact ⟨rfl, rfl⟩
  · next frame earlier hpath =>
    rw [marks, marks, hpath, List.map_cons, Frame.mark, remark, hsend]
    cases frame.selected.bind (Operation.sendOf? ops) with
    | none =>
      dsimp only [Option.orElse_none]
      rw [hpath]
      exact ⟨rfl, rfl⟩
    | some send => exact ⟨rfl, rfl⟩

/-- Picking enters no frame. -/
theorem path_pick (current : OperationId) (candidates : OpSet) (s : Dpor γ) :
    (s.pick current candidates).2.path = s.path := by
  rw [pick]
  split
  · dsimp only
    split <;> rfl
  · rfl

/-- A new frame is marked with the send that its operation has last received from. -/
theorem marks_pushFrame {current : Operation} {ops : List Operation} {id : OperationId}
    {s after : Dpor γ} (h : s.pushFrame current ops = (some id, after)) :
    after.marks = (some id, Operation.sendOf? ops id) :: s.marks := by
  rw [pushFrame] at h
  dsimp only at h
  split at h
  · cases h
  · next choice picked hpick =>
    have hpath := (path_pick current.id _ _).symm.trans (congrArg (·.2.path) hpick)
    obtain ⟨hchoice, rfl⟩ := Prod.mk.inj h
    obtain rfl := Option.some.inj hchoice
    rw [marks, List.map_cons, marks, ← hpath]
    refine congrArg₂ _ rfl ?_
    split <;> rfl

/-- The turn is passed on: the last mark is made anew, and the frame of the next turn is entered. Its
mark is that of the path of the iteration before if the frame is replayed, and is read from the
table otherwise. -/
structure Enters (ops : List Operation) (next : OperationId) (s after : Dpor γ) : Prop where
  ahead : after.ahead = s.ahead.tail ∨ after.ahead = []
  marks : ∃ send, after.marks = (some next, send) :: remark ops s.marks ∧
    (s.ahead = [] → send = Operation.sendOf? ops next)

omit [RandomSource γ] in
/-- Entering a frame adds one mark. -/
theorem Enters.length_marks {ops : List Operation} {next : OperationId} {s after : Dpor γ}
    (h : s.Enters ops next after) : after.marks.length = s.marks.length + 1 := by
  obtain ⟨send, hmarks, -⟩ := h.marks
  rw [hmarks, List.length_cons, length_remark]

/-- No frame is entered. -/
structure Stays (s after : Dpor γ) : Prop where
  ahead : after.ahead = s.ahead
  marks : after.marks = s.marks

omit [RandomSource γ] in
/-- A search that does nothing enters no frame. -/
theorem Stays.refl (s : Dpor γ) : s.Stays s :=
  ⟨rfl, rfl⟩

omit [RandomSource γ] in
/-- A frame that is replayed has its operation selected. -/
theorem selected_of_replayed? {ops : List Operation} {s : Dpor γ} {id : OperationId} {frame : Frame}
    {rest : List Frame} (h : s.replayed? ops = some (id, frame, rest)) : frame.selected = some id := by
  rw [replayed?] at h
  split at h
  · split at h
    · next hselected =>
      split at h
      · simp only [Option.some.injEq, Prod.mk.injEq] at h
        obtain ⟨rfl, rfl, -⟩ := h
        exact hselected
      · cases h
    · cases h
  · cases h

/-- A search that is asked for a turn enters the frame of an operation that is enabled. -/
theorem exists_enters [BoundedRandomSource γ] (current : Operation) {ops : List Operation}
    (hsome : Operation.enabledIds ops ≠ []) (s : Dpor γ) :
    ∃ id ∈ Operation.enabledIds ops, ∃ after,
      s.answer current (.operation ops) = (some id, after) ∧ s.Enters ops id after := by
  have hany : Operation.anyEnabled ops = true := by
    simpa [Operation.anyEnabled, Operation.enabledIds] using hsome
  obtain ⟨hmarks, hahead⟩ := marks_recordMatchingSend ops s
  simp only [answer, hany, Bool.not_true, Bool.false_eq_true, if_false]
  generalize s.recordMatchingSend ops = sent at hmarks hahead
  cases hreplayed : sent.replayed? ops with
  | some found =>
    obtain ⟨id, frame, rest⟩ := found
    obtain ⟨hid, hrest⟩ := replayed?_eq_some hreplayed
    rw [hahead] at hrest
    refine ⟨id, hid, _, rfl, .inl (by rw [hrest]; rfl), frame.matchingSend, ?_, fun hnil => ?_⟩
    · rw [← hmarks]
      exact congrArg (·::_) (congrArg (·, _) (selected_of_replayed? hreplayed))
    · cases hrest.symm.trans hnil
  | none =>
    obtain ⟨id, hid, frame, random, stats, -, hpush⟩ :=
      pushFrame_eq BoundedRandomSource.nextBounded_lt hsome current { sent with ahead := [] }
    have hpushed := marks_pushFrame hpush
    dsimp only
    rw [hpush]
    refine ⟨id, hid, _, rfl, .inr rfl, Operation.sendOf? ops id, ?_, fun _ => rfl⟩
    rw [← hmarks]
    exact hpushed

/-- Where nothing is enabled nobody gets the turn. -/
theorem answer_of_nil (current : Operation) {ops : List Operation}
    (hnil : Operation.enabledIds ops = []) (s : Dpor γ) :
    s.answer current (.operation ops) = (none, s) := by
  have hnone : Operation.anyEnabled ops = false := by
    simpa [Operation.anyEnabled, Operation.enabledIds] using hnil
  simp only [answer, hnone, Bool.not_false, if_true]

/-- Choosing a value enters no frame. -/
theorem stays_chooseValue (options : Nat) (s : Dpor γ) : s.Stays (s.chooseValue options).2 := by
  rw [chooseValue]
  split
  · next frame earlier hpath =>
    refine ⟨rfl, ?_⟩
    rw [marks, marks, hpath]
    rfl
  · exact ⟨rfl, rfl⟩

/-- A search that is asked for a value, or for a turn where nothing is enabled, enters no frame. -/
theorem stays_answer (current : Operation) (query : Query) (s : Dpor γ)
    (hquery : ∀ ops, query = .operation ops → Operation.enabledIds ops = []) :
    s.Stays (s.answer current query).2 := by
  cases query with
  | operation ops =>
    rw [answer_of_nil current (hquery ops rfl)]
    exact .refl s
  | boolean _ =>
    obtain ⟨hahead, hmarks⟩ := stays_chooseValue 2 s.step
    exact ⟨hahead, hmarks⟩
  | integer bound =>
    obtain ⟨hahead, hmarks⟩ := stays_chooseValue (max bound 1) s.step
    exact ⟨hahead, hmarks⟩

section Growth

/-! ### Paths that grow -/

omit [RandomSource γ]

/-- Frames are entered after those that there are. Of these only the last one gets another mark. -/
structure Extends (s later : Dpor γ) : Prop where
  le : s.marks.length ≤ later.marks.length
  marks : ∀ index, index + 1 < s.marks.length → later.marks.reverse[index]? = s.marks.reverse[index]?
  selected : ∀ index, index < s.marks.length →
    (later.marks.reverse[index]?).map Prod.fst = (s.marks.reverse[index]?).map Prod.fst

/-- A path that does not change has grown by nothing. -/
theorem Extends.refl (s : Dpor γ) : s.Extends s :=
  ⟨Nat.le_refl _, fun _ _ => rfl, fun _ _ => rfl⟩

/-- A path that grows twice grows. -/
theorem Extends.trans {s between later : Dpor γ} (h : s.Extends between)
    (hlater : between.Extends later) : s.Extends later :=
  ⟨h.le.trans hlater.le,
    fun index hindex => (hlater.marks index (hindex.trans_le h.le)).trans (h.marks index hindex),
    fun index hindex =>
      (hlater.selected index (hindex.trans_le h.le)).trans (h.selected index hindex)⟩

/-- A path without a new frame grows. -/
theorem Stays.extends {s later : Dpor γ} (h : s.Stays later) : s.Extends later :=
  ⟨h.marks ▸ Nat.le_refl _, fun _ _ => by rw [h.marks], fun _ _ => by rw [h.marks]⟩

/-- A path with one new frame grows. -/
theorem Enters.extends {ops : List Operation} {next : OperationId} {s later : Dpor γ}
    (h : s.Enters ops next later) : s.Extends later := by
  obtain ⟨send, hmarks, -⟩ := h.marks
  have hold {index : Nat} (hindex : index < s.marks.length) :
      later.marks.reverse[index]? = (remark ops s.marks).reverse[index]? := by
    rw [hmarks, List.reverse_cons, List.getElem?_append_left]
    rwa [List.length_reverse, length_remark]
  refine ⟨h.length_marks ▸ Nat.le_succ _, fun index hindex => ?_, fun index hindex => ?_⟩
  · rw [hold (Nat.lt_of_succ_lt hindex), getElem?_reverse_remark ops s.marks hindex]
  · rw [hold hindex, ← List.getElem?_map, ← List.getElem?_map, List.map_reverse, List.map_reverse,
      map_fst_remark]

/-- A mark is that of a frame of the path. -/
theorem getElem?_marks (s : Dpor γ) (index : Nat) :
    s.marks.reverse[index]? = (s.path.reverse[index]?).map Frame.mark := by
  rw [marks, ← List.map_reverse, List.getElem?_map]

/-- The send that a frame has received from stands in its mark. -/
theorem sendAt?_eq (s : Dpor γ) (index : Nat) :
    s.sendAt? index = (s.marks.reverse[index]?).bind Prod.snd := by
  rw [getElem?_marks, sendAt?]
  cases s.path.reverse[index]? <;> rfl

/-- The operation that a frame has selected stands in its mark. -/
theorem selectedIn?_path (s : Dpor γ) (index : Nat) :
    selectedIn? s.path.reverse index = ((s.marks.reverse[index]?).map Prod.fst).join := by
  rw [getElem?_marks, selectedIn?]
  cases s.path.reverse[index]? <;> rfl

end Growth

end Dpor

/-! ### Strategies that search -/

namespace Strategy

/-- The search of a strategy, if it is one on its own or with monitors that are watched. -/
def dpor? : Strategy γ → Option (Dpor γ)
  | dpor s => some s
  | liveness inner => inner.dpor?
  | _ => none

variable {strategy : Strategy γ} {s : Dpor γ}

omit [RandomSource γ] in
/-- A search is not fair. -/
theorem isFair_of_dpor? (h : strategy.dpor? = some s) : strategy.isFair = false := by
  induction strategy with
  | dpor => rfl
  | liveness inner ih => exact ih h
  | _ => cases h

omit [RandomSource γ] in
/-- A search has no fault. -/
theorem takeFault_of_dpor? (h : strategy.dpor? = some s) : strategy.takeFault = (none, strategy) := by
  induction strategy with
  | dpor => rfl
  | liveness inner ih => rw [takeFault, ih h]
  | _ => cases h

omit [RandomSource γ] in
/-- A search does not care for bugs. -/
theorem dpor?_notifyBug (h : strategy.dpor? = some s) : strategy.notifyBug.dpor? = some s := by
  induction strategy with
  | dpor => exact h
  | liveness inner ih => exact ih h
  | _ => cases h

/-- A search answers, and no monitor is checked. -/
theorem exists_answer_of_dpor? (h : strategy.dpor? = some s) (current : Operation) (query : Query)
    (monitors : Monitors) :
    ∃ after, strategy.answer current query monitors = ((s.answer current query).1, after, monitors) ∧
      after.dpor? = some (s.answer current query).2 := by
  induction strategy with
  | dpor =>
    obtain rfl := Option.some.inj h
    exact ⟨_, rfl, rfl⟩
  | liveness inner ih =>
    obtain ⟨after, hanswer, hafter⟩ := ih h
    have hunfair : inner.isFair = false := isFair_of_dpor? h
    refine ⟨.liveness after, ?_, hafter⟩
    simp only [answer, checkMonitors, isHalted, hunfair, Bool.false_and, Bool.false_eq_true, if_false,
      hanswer]
  | _ => cases h

end Strategy

end ScheduleExplorer
