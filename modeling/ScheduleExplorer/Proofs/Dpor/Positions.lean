import ScheduleExplorer.Proofs.Dpor.Races

/-!
# The race analysis by positions

The analysis of a path can be carried out with positions in place of lists of earlier steps: the clock of
a send or of a creation is looked up at its position among the clocks so far, and two steps are compared
at their positions among the frames and the clocks. Every look-up is checked here, and none is ever out
of range: for every list of frames the result exists and is that of `Race.clocks` and `Race.ofPath`.
-/

namespace ScheduleExplorer

namespace Race

/-! ### Clocks -/

/-- What the analysis has of the frames so far: their clocks in order, and, latest first, the clocks of
the operations and the positions at which operations were created. -/
structure Ledger where
  clocks : List VectorClock := []
  latest : List (OperationId × VectorClock) := []
  created : List (Nat × Nat) := []

/-- The clocks that a step receives, looked up by position; `none` if a position is out of range. A send
counts if it is before the step. -/
def received? (position : Nat) (frame : Frame) (op : OperationId) (step : PendingStep)
    (ledger : Ledger) : Option (List VectorClock) :=
  match step.kind with
  | .receive =>
    match frame.matchingSend.filter (· < position) with
    | some send => ledger.clocks[send]?.map ([·])
    | none => some []
  | .start =>
    match ledger.created.lookup op.index with
    | some create => ledger.clocks[create]?.map ([·])
    | none => some []
  | .join => some ((PathStep.joined frame step).filterMap fun target => ledger.latest.lookup target)
  | _ => some []

/-- Enters the clock of the frame at a position. -/
def enter? (position : Nat) (frame : Frame) (ledger : Ledger) : Option Ledger :=
  match frame.selectedStep? with
  | none => some { ledger with clocks := ledger.clocks ++ [{}] }
  | some (op, step) =>
    (received? position frame op step ledger).map fun received =>
      let clock := (received.foldl VectorClock.merge ((ledger.latest.lookup op).getD {})).tick op
      { clocks := ledger.clocks ++ [clock]
        latest := (op, clock) :: ledger.latest
        created :=
          if step.kind = .create then (step.targetId, position) :: ledger.created
          else ledger.created }

/-- Enters the clocks of frames that begin at a position. -/
def ledgerFrom? (position : Nat) (ledger : Ledger) : List Frame → Option Ledger
  | [] => some ledger
  | frame :: rest => (enter? position frame ledger).bind fun ledger =>
      ledgerFrom? (position + 1) ledger rest

/-- The clocks of all frames, with every look-up checked. -/
def clocksByPosition? (frames : List Frame) : Option (List VectorClock) :=
  (ledgerFrom? 0 {} frames).map Ledger.clocks

/-- A ledger holds the clocks of the steps so far; a frame that has no step has the empty clock. -/
structure Ledger.Describes (ledger : Ledger) (position : Nat) (earlier : List PathStep) : Prop where
  length : ledger.clocks.length = position
  latest : ledger.latest = earlier.map fun s => (s.op, s.clock)
  created : ledger.created =
    (earlier.filter (·.step.kind = .create)).map fun s => (s.step.targetId, s.frame)
  clock : ∀ s ∈ earlier, ledger.clocks[s.frame]? = some s.clock
  empty : ∀ index < position, (∀ s ∈ earlier, s.frame ≠ index) → ledger.clocks[index]? = some {}

/-- Looking up a key in a list of pairs finds the first value with this key. -/
theorem lookup_map_eq_find? {α κ β : Type} [DecidableEq κ] (key : α → κ) (value : α → β) (k : κ)
    (items : List α) :
    (items.map fun a => (key a, value a)).lookup k = (items.find? fun a => key a = k).map value := by
  induction items with
  | nil => rfl
  | cons a rest ih =>
    rw [List.map_cons, List.lookup_cons, List.find?_cons, ih]
    by_cases hkey : key a = k
    · simp [hkey]
    · simp [hkey, beq_false_of_ne (Ne.symm hkey)]

namespace Ledger.Describes

variable {ledger : Ledger} {position : Nat} {earlier : List PathStep}

/-- Every step so far lies before the position. -/
theorem frame_lt (h : ledger.Describes position earlier) {s : PathStep} (hs : s ∈ earlier) :
    s.frame < position := by
  have hlt := (List.getElem?_eq_some_iff.mp (h.clock s hs)).1
  rwa [h.length] at hlt

/-- The latest clock of an operation is that of its last step. -/
theorem lookup_latest (h : ledger.Describes position earlier) (op : OperationId) :
    ledger.latest.lookup op = PathStep.clockOf? op earlier := by
  rw [h.latest, lookup_map_eq_find?, PathStep.clockOf?]

/-- The position at which an operation was created is that of the last step that creates it. -/
theorem lookup_created (h : ledger.Describes position earlier) (id : Nat) :
    ledger.created.lookup id =
      (earlier.find? fun s => s.step.kind = .create && s.step.targetId = id).map (·.frame) := by
  rw [h.created, lookup_map_eq_find?, List.find?_filter]
  simp only [Bool.decide_and, Bool.decide_eq_true]

/-- The step at a position before the next one is found by its position. -/
theorem clock_of_find? (h : ledger.Describes position earlier) {send : Nat} (hlt : send < position) :
    ledger.clocks[send]? =
      some (((earlier.find? fun s => s.frame = send).map (·.clock)).getD {}) := by
  cases hfind : earlier.find? fun s => s.frame = send with
  | none =>
    refine h.empty send hlt fun s hs => ?_
    simpa using List.find?_eq_none.mp hfind s hs
  | some s =>
    have hframe := List.find?_some hfind
    obtain rfl : s.frame = send := of_decide_eq_true hframe
    exact h.clock s (List.mem_of_find?_eq_some hfind)

/-- What a step receives by position merges to what it receives from the steps before it. -/
theorem exists_received (h : ledger.Describes position earlier) (frame : Frame) (op : OperationId)
    (step : PendingStep) :
    ∃ received, received? position frame op step ledger = some received ∧
      ∀ own : VectorClock, received.foldl VectorClock.merge own =
        (PathStep.causes frame op step earlier).foldl VectorClock.merge own := by
  have hmerge (own : VectorClock) : own.merge {} = own := by
    obtain ⟨entries⟩ := own
    cases entries <;> rfl
  cases hkind : step.kind with
  | receive =>
    simp only [received?, PathStep.causes, hkind]
    cases hsend : frame.matchingSend with
    | none => exact ⟨[], rfl, fun _ => rfl⟩
    | some send =>
      by_cases hlt : send < position
      · have hclock := h.clock_of_find? hlt
        simp only [Option.filter_some, hlt, decide_true, if_true, hclock, Option.map_some]
        refine ⟨_, rfl, fun own => ?_⟩
        -- A frame that has no step has the empty clock, which adds nothing.
        cases earlier.find? fun s => s.frame = send with
        | none => exact hmerge own
        | some s => rfl
      · have hnone : (earlier.find? fun s => s.frame = send) = none :=
          List.find?_eq_none.mpr fun s hs => by
            have hframe := h.frame_lt hs
            simp only [decide_eq_true_eq]
            omega
        simp only [Option.filter_some, hlt, decide_false, Bool.false_eq_true, if_false, hnone]
        exact ⟨[], rfl, fun _ => rfl⟩
  | start =>
    simp only [received?, PathStep.causes, hkind, h.lookup_created]
    cases hfind : earlier.find? fun s => s.step.kind = .create && s.step.targetId = op.index with
    | none => exact ⟨[], rfl, fun _ => rfl⟩
    | some s =>
      simp only [Option.map_some, h.clock s (List.mem_of_find?_eq_some hfind)]
      exact ⟨[s.clock], rfl, fun _ => rfl⟩
  | join =>
    simp only [received?, PathStep.causes, hkind, h.lookup_latest]
    exact ⟨_, rfl, fun _ => rfl⟩
  | _ =>
    simp only [received?, PathStep.causes, hkind]
    exact ⟨[], rfl, fun _ => rfl⟩

/-- A frame without a step is described by the empty clock. -/
theorem skip (h : ledger.Describes position earlier) :
    ({ ledger with clocks := ledger.clocks ++ [{}] } : Ledger).Describes (position + 1) earlier := by
  refine ⟨by simp [h.length], h.latest, h.created, fun s hs => ?_, fun index hlt hnone => ?_⟩
  · rw [List.getElem?_append_left (by rw [h.length]; exact h.frame_lt hs), h.clock s hs]
  · rcases Nat.lt_succ_iff_lt_or_eq.mp hlt with hbefore | rfl
    · rw [List.getElem?_append_left (by rwa [h.length]), h.empty index hbefore hnone]
    · rw [← h.length, List.getElem?_concat_length]

/-- A step at the next position is described by its clock. -/
theorem push (h : ledger.Describes position earlier) {s : PathStep} (hs : s.frame = position) :
    ({ clocks := ledger.clocks ++ [s.clock]
       latest := (s.op, s.clock) :: ledger.latest
       created := if s.step.kind = .create then (s.step.targetId, position) :: ledger.created
         else ledger.created } : Ledger).Describes (position + 1) (s :: earlier) := by
  refine ⟨by simp [h.length], by rw [h.latest, List.map_cons], ?_, fun t ht => ?_,
    fun index hlt hnone => ?_⟩
  · by_cases hkind : s.step.kind = .create
    · simp [hkind, h.created, hs]
    · simp [hkind, h.created]
  · rcases List.mem_cons.mp ht with rfl | hold
    · rw [hs, ← h.length, List.getElem?_concat_length]
    · rw [List.getElem?_append_left (by rw [h.length]; exact h.frame_lt hold), h.clock t hold]
  · rw [List.forall_mem_cons] at hnone
    have hbefore : index < position := by omega
    rw [List.getElem?_append_left (by rwa [h.length]), h.empty index hbefore hnone.2]

/-- Entering a frame never fails, and the ledger then describes the steps with that of the frame. -/
theorem exists_enter (h : ledger.Describes position earlier) (frame : Frame) :
    ∃ next, enter? position frame ledger = some next ∧
      next.clocks = ledger.clocks ++
        [((PathStep.ofFrame? position earlier frame).map (·.clock)).getD {}] ∧
      next.Describes (position + 1) ((PathStep.ofFrame? position earlier frame).toList ++ earlier) := by
  rw [enter?, PathStep.ofFrame?]
  cases frame.selectedStep? with
  | none => exact ⟨_, rfl, rfl, h.skip⟩
  | some selected =>
    obtain ⟨op, step⟩ := selected
    obtain ⟨received, hreceived, hmerge⟩ := h.exists_received frame op step
    simp only [hreceived, Option.map_some, hmerge, h.lookup_latest]
    exact ⟨_, rfl, rfl, h.push (s := ⟨position, op, step, _⟩) rfl⟩

/-- The clocks of frames by position are those of their steps. -/
theorem exists_ledgerFrom (h : ledger.Describes position earlier) (frames : List Frame) :
    (ledgerFrom? position ledger frames).map Ledger.clocks = some (ledger.clocks ++
      (PathStep.timelineFrom position earlier frames).map fun s => (s.map (·.clock)).getD {}) := by
  induction frames generalizing ledger position earlier with
  | nil =>
    rw [ledgerFrom?, PathStep.timelineFrom, List.map_nil, List.append_nil]
    rfl
  | cons frame rest ih =>
    obtain ⟨next, hnext, hclocks, hdescribes⟩ := h.exists_enter frame
    rw [ledgerFrom?, hnext, Option.bind_some, ih hdescribes, hclocks, PathStep.timelineFrom]
    cases PathStep.ofFrame? position earlier frame <;>
      simp [List.append_assoc]

end Ledger.Describes

/-- Looking up clocks by position is never out of range, and gives the clocks of the frames. -/
theorem clocksByPosition?_eq (frames : List Frame) :
    clocksByPosition? frames = some (clocks frames) := by
  have hstart : ({} : Ledger).Describes 0 [] :=
    ⟨rfl, rfl, rfl, fun _ hs => absurd hs List.not_mem_nil, fun _ hlt => absurd hlt (Nat.not_lt_zero _)⟩
  exact hstart.exists_ledgerFrom frames

/-! ### Races -/

/-- Whether the step at a position races with one at another position, with every look-up checked. Only
the clocks of dependent steps of different operations are looked up. -/
def racesAt? (frames : List Frame) (clocks : List VectorClock) (position : Nat) (op : OperationId)
    (step : PendingStep) (index : Nat) : Option Bool := do
  let earlier ← frames[index]?
  match earlier.selectedStep? with
  | some (other, otherStep) =>
    if other ≠ op && otherStep.isDependent step then
      let clock ← clocks[index]?
      let laterClock ← clocks[position]?
      pure (!clock.happensBefore laterClock)
    else pure false
  | none => pure false

/-- The last position before a bound with whose step the step at a position races. -/
def closest? (frames : List Frame) (clocks : List VectorClock) (position : Nat) (op : OperationId)
    (step : PendingStep) : Nat → Option (Option Nat)
  | 0 => some none
  | index + 1 => do
    if ← racesAt? frames clocks position op step index then pure (some index)
    else closest? frames clocks position op step index

/-- The races of a number of steps from a position on, in order. -/
def racesFrom? (frames : List Frame) (clocks : List VectorClock) (position : Nat) :
    Nat → Option (List Race)
  | 0 => some []
  | count + 1 => do
    let frame ← frames[position]?
    match frame.selectedStep? with
    | some (op, step) =>
      let index ← closest? frames clocks position op step position
      let rest ← racesFrom? frames clocks (position + 1) count
      pure ((index.map fun index => ⟨index, op⟩).toList ++ rest)
    | none => racesFrom? frames clocks (position + 1) count

/-- The races of a path, with every look-up checked. -/
def ofPathByPosition? (frames : List Frame) : Option (List Race) :=
  (clocksByPosition? frames).bind fun clocks => racesFrom? frames clocks 0 frames.length

section Races

open PathStep

variable {frames : List Frame} {position : Nat}

/-- The clock at the position of a step is that of the step. -/
theorem getElem?_clocks {s : PathStep} (hs : at? frames position = some s) :
    (clocks frames)[position]? = some s.clock := by
  rw [at?, Option.join_eq_some_iff] at hs
  rw [clocks, List.getElem?_map, hs]
  rfl

/-- Comparing two steps at their positions is never out of range. -/
theorem racesAt?_eq {later : PathStep} (hlater : at? frames position = some later) {index : Nat}
    (hlt : index < frames.length) :
    racesAt? frames (clocks frames) position later.op later.step index =
      some ((at? frames index).any (·.racesWith later)) := by
  have hframe := List.getElem?_eq_getElem hlt
  have hselected := map_at? frames index
  rw [selectedAt?, hframe, Option.bind_some] at hselected
  simp only [racesAt?, hframe, ← hselected, Option.bind_eq_bind, Option.bind_some]
  cases hs : at? frames index with
  | none => rfl
  | some s =>
    simp only [Option.map_some, Option.any_some, racesWith, getElem?_clocks hs, getElem?_clocks hlater,
      Option.bind_some]
    split
    · next h => rw [h, Bool.true_and]; rfl
    · next h => rw [Bool.eq_false_iff.mpr h, Bool.false_and]; rfl

/-- Looking for the closest race by position finds it among the steps before. -/
theorem closest?_eq {later : PathStep} (hlater : at? frames position = some later) {index : Nat}
    (hle : index ≤ frames.length) :
    closest? frames (clocks frames) position later.op later.step index =
      some (((before frames index).find? (·.racesWith later)).map (·.frame)) := by
  induction index with
  | zero => rfl
  | succ index ih =>
    simp only [closest?, racesAt?_eq hlater hle, Option.bind_eq_bind, Option.bind_some]
    rw [ih (Nat.le_of_succ_le hle), before_succ]
    cases hs : at? frames index with
    | none => rfl
    | some s =>
      rw [Option.any_some, Option.toList_some, List.singleton_append, List.find?_cons, ← frame_of_at? hs]
      cases s.racesWith later <;> rfl

/-- The races of the steps from a position on are found by position. -/
theorem racesFrom?_eq {count : Nat} (hlength : position + count = frames.length) :
    racesFrom? frames (clocks frames) position count =
      some (ofSteps (before frames position)
        ((timelineFrom position (before frames position) (frames.drop position)).filterMap id)) := by
  induction count generalizing position with
  | zero =>
    rw [List.drop_eq_nil_of_le (by omega)]
    rfl
  | succ count ih =>
    have hlt : position < frames.length := by omega
    have hframe := List.getElem?_eq_getElem hlt
    have hstep : at? frames position = ofFrame? position (before frames position) frames[position] := by
      rw [at?_eq, hframe, Option.bind_some]
    have hselected := map_at? frames position
    rw [selectedAt?, hframe, Option.bind_some] at hselected
    have hrest := ih (by omega : position + 1 + count = frames.length)
    rw [before_succ] at hrest
    simp only [racesFrom?, hframe, ← hselected, Option.bind_eq_bind, Option.bind_some, hrest]
    rw [List.drop_eq_getElem_cons hlt, timelineFrom, ← hstep]
    cases hs : at? frames position with
    | none => rfl
    | some s =>
      simp only [Option.map_some, closest?_eq hs (Nat.le_of_lt hlt), Option.bind_some,
        Option.toList_some, List.singleton_append, List.filterMap_cons_some (f := id) (a := some s) rfl,
        ofSteps]
      cases (before frames position).find? (·.racesWith s) <;> rfl

/-- The race analysis by position is never out of range, and finds the races of the path. -/
theorem ofPathByPosition?_eq (frames : List Frame) :
    ofPathByPosition? frames = some (ofPath frames) := by
  rw [ofPathByPosition?, clocksByPosition?_eq, Option.bind_some,
    racesFrom?_eq (Nat.zero_add frames.length)]
  rfl

end Races

end Race

end ScheduleExplorer
