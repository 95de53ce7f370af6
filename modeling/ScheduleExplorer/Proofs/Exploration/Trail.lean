import ScheduleExplorer.Proofs.Strategy.Searches

/-!
# Trails of a partial-order search

A trail is how far a search has come down a decision tree. While the search goes through the part of
the tree below, the trail grows: races put operations into the backtrack sets of its frames, and the
send that its last operation received from may be recorded. A frame stays open as long as operations
are left to be tried in it.
-/

namespace ScheduleExplorer

/-- How far a search has come down a tree: the frames of the turns it has passed, last first, and
the values chosen before the first one. -/
structure Trail where
  frames : List Frame := []
  initial : Odometer := {}

/-- A frame whose selected operation has been tried. -/
def Frame.close (frame : Frame) : Frame :=
  { frame with
    choices := {}
    done := match frame.selected with
      | some id => frame.done.insert id
      | none => frame.done }

namespace Trail

/-- Changes the values chosen since the last turn. -/
def mapChoices (f : Odometer → Odometer) (t : Trail) : Trail :=
  match t.frames with
  | [] => { t with initial := f t.initial }
  | frame :: earlier => { t with frames := { frame with choices := f frame.choices } :: earlier }

/-- Goes on with a value. -/
def choose (choice : Choice) (t : Trail) : Trail :=
  t.mapChoices fun choices => { choices with passed := choice :: choices.passed }

/-- Goes back before the last value. -/
def unchoose (t : Trail) : Trail :=
  t.mapChoices fun choices => { choices with passed := choices.passed.tail }

/-- Goes on with a turn. -/
def push (frame : Frame) (t : Trail) : Trail :=
  { t with frames := frame :: t.frames }

/-- The step of the send from which the selected operation of a frame received last. -/
def sendOf? (ops : List Operation) (frame : Frame) : Option Nat :=
  frame.selected.bind fun id => (ops.find? fun op => op.id = id).bind (·.matchingSend)

/-- Enters into the last frame which send its operation has received from since. -/
def recordSend (ops : List Operation) (t : Trail) : Trail :=
  match t.frames with
  | [] => t
  | frame :: earlier =>
    match sendOf? ops frame with
    | some step => { t with frames := { frame with matchingSend := some step } :: earlier }
    | none => t

/-- The frame of a table of operations below the trail, before anything is selected. -/
def capture (ops : List Operation) (t : Trail) : Frame :=
  { Frame.capture ops with sleep := (t.frames.head?.map Frame.inheritedSleep).getD {} }

/-- The operation that is tried first in a frame: the next one from the running operation on among
those that do not sleep, or among all if all of them sleep. -/
def first? (current : OperationId) (frame : Frame) : Option OperationId :=
  let ids := (if frame.awake.isEmpty then frame.enabled else frame.awake).toList
  (ids.find? fun id => current.index ≤ id.index).orElse fun _ => ids.head?

/-- The first operation that is tried at a turn, and the frame of the turn. -/
def enter? (current : OperationId) (ops : List Operation) (t : Trail) :
    Option (OperationId × Frame) :=
  (first? current (t.capture ops)).map fun id =>
    (id, { t.capture ops with
      backtrack := (t.capture ops).backtrack.insert id
      selected := some id
      matchingSend := (ops.find? fun op => op.id = id).bind (·.matchingSend) })

/-- Enters the races of the path that ends here into its frames. -/
def analyse (t : Trail) : Trail :=
  { t with frames :=
      (Dpor.addRaces (Race.ofPath t.frames.reverse) t.frames.reverse).reverse }

end Trail

/-! ### Growing trails -/

/-- A frame into whose backtrack set enabled operations have been put. -/
def Frame.Grows (frame grown : Frame) : Prop :=
  ∃ backtrack, grown = { frame with backtrack } ∧
    ∀ id, backtrack.contains id = true →
      frame.backtrack.contains id = true ∨ frame.enabled.contains id = true

/-- A frame has grown by nothing. -/
theorem Frame.Grows.refl (frame : Frame) : frame.Grows frame :=
  ⟨frame.backtrack, rfl, fun _ h => .inl h⟩

/-- Growing twice is growing. -/
theorem Frame.Grows.trans {frame between grown : Frame} (h : frame.Grows between)
    (h' : between.Grows grown) : frame.Grows grown := by
  obtain ⟨first, rfl, hfirst⟩ := h
  obtain ⟨second, rfl, hsecond⟩ := h'
  refine ⟨second, rfl, fun id hid => ?_⟩
  rcases hsecond id hid with hold | henabled
  · exact hfirst id hold
  · exact .inr henabled

/-- A race puts enabled operations into the backtrack set of its frame. -/
theorem Frame.grows_addBacktrack (op : OperationId) (frame : Frame) :
    frame.Grows (Dpor.addBacktrack op frame) := by
  rw [Dpor.addBacktrack]
  split
  · next henabled =>
    refine ⟨_, rfl, fun id hid => ?_⟩
    rw [OpSet.contains_insert, Bool.or_eq_true, decide_eq_true_eq] at hid
    rcases hid with hold | rfl
    · exact .inl hold
    · exact .inr henabled
  · refine ⟨_, rfl, fun id hid => ?_⟩
    rwa [OpSet.contains_union, Bool.or_eq_true] at hid

section Pointwise

variable {R : Frame → Frame → Prop}

/-- A transitive relation of frames is transitive on paths. -/
theorem forall₂_frames_trans (htrans : ∀ a b c, R a b → R b c → R a c)
    {frames between later : List Frame} (h : frames.Forall₂ R between) (h' : between.Forall₂ R later) :
    frames.Forall₂ R later := by
  induction h generalizing later with
  | nil => exact h'
  | cons hfirst _ ih =>
    cases h' with
    | cons hsecond hrest => exact .cons (htrans _ _ _ hfirst hsecond) (ih hrest)

/-- A race changes its frame alone. -/
theorem forall₂_modify (hrefl : ∀ frame, R frame frame) {f : Frame → Frame}
    (hf : ∀ frame, R frame (f frame)) (index : Nat) (frames : List Frame) :
    frames.Forall₂ R (frames.modify index f) := by
  induction frames generalizing index with
  | nil =>
    rw [List.modify_nil]
    exact .nil
  | cons frame rest ih =>
    cases index with
    | zero => exact .cons (hf frame) (List.forall₂_same.mpr fun other _ => hrefl other)
    | succ index => exact .cons (hrefl frame) (ih index)

/-- What adding operations to a backtrack set respects, the races of a path respect. -/
theorem forall₂_addRaces (hrefl : ∀ frame, R frame frame) (htrans : ∀ a b c, R a b → R b c → R a c)
    (hadd : ∀ op frame, R frame (Dpor.addBacktrack op frame)) (races : List Race)
    (frames : List Frame) : frames.Forall₂ R (Dpor.addRaces races frames) := by
  rw [Dpor.addRaces]
  induction races generalizing frames with
  | nil => exact List.forall₂_same.mpr fun frame _ => hrefl frame
  | cons race rest ih =>
    rw [List.foldl_cons]
    exact forall₂_frames_trans htrans (forall₂_modify hrefl (hadd race.op) race.frame frames) (ih _)

end Pointwise

/-- Frames that grow twice grow. -/
theorem grows_trans {frames between grown : List Frame} (h : frames.Forall₂ Frame.Grows between)
    (h' : between.Forall₂ Frame.Grows grown) : frames.Forall₂ Frame.Grows grown :=
  forall₂_frames_trans (fun _ _ _ => .trans) h h'

/-- Frames have grown by nothing. -/
theorem grows_refl (frames : List Frame) : frames.Forall₂ Frame.Grows frames :=
  List.forall₂_same.mpr fun frame _ => .refl frame

/-- Races make the frames of a path grow. -/
theorem grows_addRaces (races : List Race) (frames : List Frame) :
    frames.Forall₂ Frame.Grows (Dpor.addRaces races frames) :=
  forall₂_addRaces Frame.Grows.refl (fun _ _ _ => .trans) Frame.grows_addBacktrack races frames

namespace Trail

/-- The frames of a trail have grown. -/
structure Settles (t grown : Trail) : Prop where
  frames : t.frames.Forall₂ Frame.Grows grown.frames
  initial : grown.initial = t.initial

/-- The frames of a trail have grown, and a send may have been recorded in the last one. -/
inductive Grows : Trail → Trail → Prop where
  | empty (initial : Odometer) : Grows ⟨[], initial⟩ ⟨[], initial⟩
  | frame {frame grown : Frame} {earlier before : List Frame} (matchingSend : Option Nat)
      (hlast : { frame with matchingSend }.Grows grown)
      (hearlier : earlier.Forall₂ Frame.Grows before) (initial : Odometer) :
      Grows ⟨frame :: earlier, initial⟩ ⟨grown :: before, initial⟩

/-- A trail whose frames have grown. -/
theorem Settles.grows {t grown : Trail} (h : t.Settles grown) : t.Grows grown := by
  obtain ⟨frames, initial⟩ := t
  obtain ⟨later, initial'⟩ := grown
  obtain ⟨hframes, hinitial⟩ := h
  obtain rfl : initial' = initial := hinitial
  cases hframes with
  | nil => exact .empty initial'
  | @cons frame _ _ _ hlast hearlier => exact .frame frame.matchingSend hlast hearlier initial'

/-- Frames that grow twice grow. -/
theorem Settles.trans {t between grown : Trail} (h : t.Settles between)
    (h' : between.Settles grown) : t.Settles grown :=
  ⟨grows_trans h.frames h'.frames, h'.initial.trans h.initial⟩

/-- The analysis of a path makes the frames of the trail grow. -/
theorem grows_analyse (t : Trail) : t.Grows t.analyse := by
  have hframes := grows_addRaces (Race.ofPath t.frames.reverse) t.frames.reverse
  rw [← List.forall₂_reverse_iff, List.reverse_reverse] at hframes
  exact Settles.grows ⟨hframes, rfl⟩

/-- A trail has grown by nothing. -/
theorem Grows.refl (t : Trail) : t.Grows t :=
  Settles.grows ⟨grows_refl t.frames, rfl⟩

/-- Growing twice is growing. -/
theorem Grows.trans {t between grown : Trail} (h : t.Grows between) (h' : between.Grows grown) :
    t.Grows grown := by
  cases h with
  | empty => exact h'
  | frame send hlast hearlier =>
    cases h' with
    | frame send' hlast' hearlier' =>
      obtain ⟨first, rfl, hfirst⟩ := hlast
      exact .frame send' (.trans ⟨first, rfl, hfirst⟩ hlast') (grows_trans hearlier hearlier') _

/-- Choices are changed alike in a trail that has grown. -/
theorem Grows.mapChoices {t grown : Trail} (h : t.Grows grown) (f : Odometer → Odometer) :
    (t.mapChoices f).Grows (grown.mapChoices f) := by
  cases h with
  | empty => exact .empty _
  | @frame frame _ _ _ send hlast hearlier =>
    obtain ⟨backtrack, rfl, hbacktrack⟩ := hlast
    exact @Grows.frame { frame with choices := f frame.choices } _ _ _ send
      ⟨backtrack, rfl, hbacktrack⟩ hearlier _

/-- Going back after a value leads to the same trail. -/
theorem unchoose_choose (choice : Choice) (t : Trail) : (t.choose choice).unchoose = t := by
  obtain ⟨frames, initial⟩ := t
  cases frames <;> rfl

/-- A trail that has grown below a value is the trail that has grown before the value. -/
theorem Grows.of_choose {choice : Choice} {t grown : Trail} (h : (t.choose choice).Grows grown) :
    t.Grows grown.unchoose ∧ grown.unchoose.choose choice = grown := by
  have hback := h.mapChoices fun choices => { choices with passed := choices.passed.tail }
  rw [← unchoose, unchoose_choose] at hback
  refine ⟨hback, ?_⟩
  obtain ⟨frames, initial⟩ := t
  cases frames with
  | nil =>
    cases h with
    | empty => rfl
  | cons frame earlier =>
    cases h with
    | frame send hlast hearlier =>
      obtain ⟨backtrack, rfl, hbacktrack⟩ := hlast
      rfl

/-- A trail that has grown below a turn is the trail above the turn and its frame, both grown. -/
theorem Grows.of_push {frame : Frame} {t grown : Trail} (h : (t.push frame).Grows grown) :
    ∃ matchingSend later above, { frame with matchingSend }.Grows later ∧ t.Settles above ∧
      grown = above.push later := by
  cases h with
  | frame send hlast hearlier => exact ⟨send, _, ⟨_, _⟩, hlast, ⟨hearlier, rfl⟩, rfl⟩

/-- Recording a send is growing. -/
theorem grows_recordSend (ops : List Operation) (t : Trail) : t.Grows (t.recordSend ops) := by
  obtain ⟨frames, initial⟩ := t
  cases frames with
  | nil => exact .refl _
  | cons frame earlier =>
    rw [recordSend]
    dsimp only
    split
    · next step _ => exact .frame (some step) (.refl _) (grows_refl earlier) initial
    · exact .refl _

/-- A trail in which the send that the last operation received from since is recorded. -/
def IsRecorded (ops : List Operation) (t : Trail) : Prop :=
  t.recordSend ops = t

/-- A send that was recorded is recorded. -/
theorem isRecorded_recordSend (ops : List Operation) (t : Trail) :
    (t.recordSend ops).IsRecorded ops := by
  obtain ⟨frames, initial⟩ := t
  cases frames with
  | nil => rfl
  | cons frame earlier =>
    rw [IsRecorded]
    cases hsend : sendOf? ops frame with
    | none => simp only [recordSend, hsend]
    | some step =>
      have hsend' : sendOf? ops { frame with matchingSend := some step } = some step := hsend
      simp only [recordSend, hsend, hsend']

/-- A recorded send stays recorded while frames grow. -/
theorem IsRecorded.settles {ops : List Operation} {t grown : Trail} (h : t.IsRecorded ops)
    (hgrown : t.Settles grown) : grown.IsRecorded ops := by
  obtain ⟨frames, initial⟩ := t
  obtain ⟨later, initial'⟩ := grown
  obtain ⟨hframes, hinitial⟩ := hgrown
  obtain rfl : initial' = initial := hinitial
  cases hframes with
  | nil => rfl
  | @cons frame grown earlier before hlast hearlier =>
    obtain ⟨backtrack, rfl, -⟩ := hlast
    rw [IsRecorded] at h ⊢
    cases hsend : sendOf? ops frame with
    | none =>
      have hgrown : sendOf? ops { frame with backtrack } = none := hsend
      simp only [recordSend, hgrown]
    | some step =>
      have hgrown : sendOf? ops { frame with backtrack } = some step := hsend
      simp only [recordSend, hsend, Trail.mk.injEq, List.cons.injEq, and_true] at h
      have hstep : frame.matchingSend = some step := (congrArg Frame.matchingSend h).symm
      simp only [recordSend, hgrown]
      rw [hstep]

end Trail

/-! ### Open frames -/

/-- A captured frame has nothing to try yet. -/
theorem Frame.capture_untouched (ops : List Operation) :
    (Frame.capture ops).backtrack = {} ∧ (Frame.capture ops).done = {} := by
  have hfold (rest : List Operation) (frame : Frame) :
      (rest.foldl enter frame).backtrack = frame.backtrack ∧
        (rest.foldl enter frame).done = frame.done := by
    induction rest generalizing frame with
    | nil => exact ⟨rfl, rfl⟩
    | cons op rest ih =>
      rw [List.foldl_cons, (ih _).1, (ih _).2]
      by_cases hop : op.isEnabled <;> by_cases hdone : op.status.isCompleted <;>
        simp [enter, hop, hdone]
  exact hfold ops _

/-- A frame of a table in which an enabled operation is about to be tried, and after it at most a
number of others. -/
structure Frame.IsOpen (ops : List Operation) (id : OperationId) (count : Nat) (frame : Frame) :
    Prop where
  selected : frame.selected = some id
  choices : frame.choices = {}
  enabled : ∀ other, frame.enabled.contains other = true → other ∈ Operation.enabledIds ops
  backtrack : ∀ other, frame.backtrack.contains other = true → other ∈ Operation.enabledIds ops
  mem : id ∈ Operation.enabledIds ops
  untried : frame.done.contains id = false
  count : ((Operation.enabledIds ops).filter fun other => !frame.done.contains other).length ≤ count

/-- Something is tried in every open frame. -/
theorem Frame.IsOpen.pos {ops : List Operation} {id : OperationId} {count : Nat} {frame : Frame}
    (h : frame.IsOpen ops id count) : 0 < count := by
  have hmem : id ∈ (Operation.enabledIds ops).filter fun other => !frame.done.contains other :=
    List.mem_filter.mpr ⟨h.mem, by rw [h.untried]; rfl⟩
  exact Nat.lt_of_lt_of_le (List.length_pos_of_mem hmem) h.count

/-- Once an operation has been tried, the frame is open for the next one. -/
theorem Frame.IsOpen.next {ops : List Operation} {id next : OperationId} {count : Nat}
    {frame grown : Frame} (h : frame.IsOpen ops id (count + 1)) {matchingSend : Option Nat}
    (hgrown : { frame with matchingSend }.Grows grown)
    (hnext : grown.close.unexplored.first? = some next) :
    (grown.close.select next).IsOpen ops next count := by
  obtain ⟨backtrack, rfl, hbacktrack⟩ := hgrown
  have hwithin (other : OperationId) (hother : backtrack.contains other = true) :
      other ∈ Operation.enabledIds ops :=
    (hbacktrack other hother).elim (h.backtrack other) (h.enabled other)
  have hdone : ({ frame with matchingSend, backtrack } : Frame).close.done = frame.done.insert id := by
    rw [close]
    simp only [h.selected]
  have hmem := OpSet.contains_of_first? hnext
  rw [unexplored, OpSet.contains_difference, OpSet.contains_difference, hdone] at hmem
  simp only [Bool.and_eq_true, Bool.not_eq_true'] at hmem
  refine ⟨rfl, rfl, h.enabled, hwithin, hwithin next hmem.1.1, ?_, ?_⟩
  · rw [select, hdone]
    exact hmem.1.2
  · have hfewer : ((Operation.enabledIds ops).filter fun other =>
        !(frame.done.insert id).contains other) =
        ((Operation.enabledIds ops).filter fun other => !frame.done.contains other).filter
          fun other => !decide (id = other) := by
      rw [List.filter_filter]
      apply List.filter_congr
      intro other _
      rw [OpSet.contains_insert, Bool.not_or, Bool.and_comm]
    have hless : (((Operation.enabledIds ops).filter fun other => !frame.done.contains other).filter
        fun other => !decide (id = other)).length <
          ((Operation.enabledIds ops).filter fun other => !frame.done.contains other).length := by
      rw [List.length_filter_lt_length_iff_exists]
      exact ⟨id, List.mem_filter.mpr ⟨h.mem, by rw [h.untried]; rfl⟩, by simp⟩
    rw [select, hdone, hfewer]
    have hcount := h.count
    omega

namespace Trail

/-- The frame of a table holds its enabled operations. -/
theorem contains_enabled_capture (ops : List Operation) (t : Trail) (id : OperationId) :
    (t.capture ops).enabled.contains id = true ↔ id ∈ Operation.enabledIds ops :=
  Frame.contains_enabled_capture

/-- The operation that is tried first is enabled. -/
theorem mem_of_first? {current id : OperationId} {frame : Frame}
    (h : first? current frame = some id) : frame.enabled.contains id = true := by
  have hmem : id ∈ (if frame.awake.isEmpty then frame.enabled else frame.awake).toList := by
    rw [first?] at h
    cases hfind : (if frame.awake.isEmpty then frame.enabled else frame.awake).toList.find?
        fun id => current.index ≤ id.index with
    | some found =>
      rw [hfind] at h
      obtain rfl := Option.some.inj h
      exact List.mem_of_find?_eq_some hfind
    | none =>
      rw [hfind] at h
      exact List.mem_of_head? h
  rw [OpSet.mem_toList] at hmem
  split at hmem
  · exact hmem
  · rw [Frame.awake, OpSet.contains_difference, Bool.and_eq_true] at hmem
    exact hmem.1

/-- Where an operation is enabled, one is tried first. -/
theorem exists_first? (current : OperationId) {frame : Frame}
    (h : frame.enabled.isEmpty = false) : ∃ id, first? current frame = some id := by
  have hsome : (if frame.awake.isEmpty then frame.enabled else frame.awake).toList ≠ [] := by
    intro hnil
    have hempty : (if frame.awake.isEmpty then frame.enabled else frame.awake).isEmpty = true := by
      refine OpSet.isEmpty_iff.mpr fun id => ?_
      rw [Bool.eq_false_iff, Ne, ← OpSet.mem_toList, hnil]
      exact List.not_mem_nil
    split at hempty
    · cases h.symm.trans hempty
    · next hawake => exact hawake hempty
  obtain ⟨id, rest, hcons⟩ := List.exists_cons_of_ne_nil hsome
  rw [first?, hcons, List.head?_cons]
  cases (id :: rest).find? fun id => current.index ≤ id.index with
  | some found => exact ⟨found, rfl⟩
  | none => exact ⟨id, rfl⟩

/-- A turn with an enabled operation is entered. -/
theorem exists_enter? {ops : List Operation} (h : Operation.enabledIds ops ≠ [])
    (current : OperationId) (t : Trail) :
    ∃ id frame, t.enter? current ops = some (id, frame) := by
  have henabled : (t.capture ops).enabled.isEmpty = false := by
    rw [Bool.eq_false_iff, Ne, OpSet.isEmpty_iff]
    intro hnone
    obtain ⟨id, rest, hcons⟩ := List.exists_cons_of_ne_nil h
    have hmem := (contains_enabled_capture ops t id).mpr (hcons ▸ List.mem_cons_self)
    rw [hnone id] at hmem
    cases hmem
  obtain ⟨id, hfirst⟩ := exists_first? current henabled
  exact ⟨id, _, by rw [enter?, hfirst, Option.map_some]⟩

/-- A turn is entered with an open frame. -/
theorem isOpen_enter {current id : OperationId} {ops : List Operation} {t : Trail} {frame : Frame}
    (h : t.enter? current ops = some (id, frame)) : frame.IsOpen ops id ops.length := by
  rw [enter?, Option.map_eq_some_iff] at h
  obtain ⟨found, hfirst, heq⟩ := h
  simp only [Prod.mk.injEq] at heq
  obtain ⟨rfl, rfl⟩ := heq
  obtain ⟨hbacktrack, hdone⟩ := Frame.capture_untouched ops
  have hmem : found ∈ Operation.enabledIds ops :=
    (contains_enabled_capture ops t found).mp (mem_of_first? hfirst)
  refine ⟨rfl, Frame.choices_capture ops, fun other => (contains_enabled_capture ops t other).mp,
    fun other hother => ?_, hmem, ?_, ?_⟩
  · simp only [capture, hbacktrack, OpSet.contains_insert, Bool.or_eq_true, decide_eq_true_eq]
      at hother
    rcases hother with hnone | rfl
    · simp [OpSet.contains] at hnone
    · exact hmem
  · simp only [capture, hdone]
    simp [OpSet.contains]
  · refine Nat.le_trans (List.length_filter_le _ _) ?_
    rw [Operation.enabledIds, List.length_map]
    exact List.length_filter_le _ _

end Trail

end ScheduleExplorer
