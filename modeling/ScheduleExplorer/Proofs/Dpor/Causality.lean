import Mathlib.Data.List.Range
import Mathlib.Logic.Relation
import ScheduleExplorer.Dpor.Race
import ScheduleExplorer.Proofs.Dpor.Clock

/-!
# Race analysis is exact

The steps of a path are ordered by cause: a step comes after the previous one of its operation, a
receive after the send of its message, a start after the creation of its operation, and a join after
the last step of every operation that it finds completed. `HappensBefore` is the transitive closure
of these causes, over the positions of the steps.

The vector clocks of the steps are in the same order. For one direction, a clock is at least as large
as the clocks of the causes of its step. For the other one, every entry of a clock comes from a step
that is not later in the order of causes (`exists_source`). So the races of a path are the pairs that
can be described without clocks.
-/

namespace ScheduleExplorer

variable {frames : List Frame}

/-- The operation and the step that are selected at a position of a path. -/
def selectedAt? (frames : List Frame) (index : Nat) : Option (OperationId × PendingStep) :=
  frames[index]?.bind Frame.selectedStep?

/-- The last step before a position that has a property. -/
structure IsLatest (frames : List Frame) (holds : OperationId × PendingStep → Prop)
    (index position : Nat) : Prop where
  lt : index < position
  selected : ∃ step, selectedAt? frames index = some step ∧ holds step
  latest : ∀ later, index < later → later < position →
    ∀ step, selectedAt? frames later = some step → ¬ holds step

/-- Whether a step waits for an operation to complete: a join with no list of its own waits for its
target. -/
def PendingStep.Joins (step : PendingStep) (id : OperationId) : Prop :=
  if step.joinTargets.isEmpty then id.index = step.targetId else step.joinTargets.contains id = true

/-- Why a step of a path comes after an earlier one. -/
inductive Causes (frames : List Frame) : Nat → Nat → Prop where
  /-- The two are consecutive steps of one operation. -/
  | program {earlier later : Nat} {op : OperationId} {step : PendingStep}
      (hstep : selectedAt? frames later = some (op, step))
      (hlatest : IsLatest frames (fun other => other.1 = op) earlier later) :
      Causes frames earlier later
  /-- The later one receives what the earlier one has sent. -/
  | message {send receive : Nat} {frame : Frame} {op : OperationId} {step : PendingStep}
      (hframe : frames[receive]? = some frame) (hstep : frame.selectedStep? = some (op, step))
      (hkind : step.kind = .receive) (hsend : frame.matchingSend = some send)
      (hlt : send < receive) : Causes frames send receive
  /-- The earlier one is the last to create the operation that the later one starts. -/
  | creation {create start : Nat} {op : OperationId} {step : PendingStep}
      (hstep : selectedAt? frames start = some (op, step)) (hkind : step.kind = .start)
      (hlatest : IsLatest frames
        (fun other => other.2.kind = .create ∧ other.2.targetId = op.index) create start) :
      Causes frames create start
  /-- The later one joins an operation whose last step was the earlier one. -/
  | join {last join : Nat} {frame : Frame} {op target : OperationId} {step : PendingStep}
      (hframe : frames[join]? = some frame) (hstep : frame.selectedStep? = some (op, step))
      (hkind : step.kind = .join) (hjoins : step.Joins target)
      (hcompleted : frame.pending[target.index]? = some none)
      (hlatest : IsLatest frames (fun other => other.1 = target) last join) :
      Causes frames last join

/-- The order of causes between the steps of a path. -/
def HappensBefore (frames : List Frame) : Nat → Nat → Prop :=
  Relation.TransGen (Causes frames)

/-- A cause comes before its effect in the path. -/
theorem Causes.lt {earlier later : Nat} (h : Causes frames earlier later) : earlier < later := by
  cases h with
  | program _ hlatest => exact hlatest.lt
  | message _ _ _ _ hlt => exact hlt
  | creation _ _ hlatest => exact hlatest.lt
  | join _ _ _ _ _ hlatest => exact hlatest.lt

/-- What happens before comes earlier in the path. -/
theorem HappensBefore.lt {earlier later : Nat} (h : HappensBefore frames earlier later) :
    earlier < later := by
  induction h with
  | single hcause => exact hcause.lt
  | tail _ hcause ih => exact ih.trans hcause.lt

namespace PathStep

/-! ### The steps of a path -/

/-- The step at a position of a path, with its clock. -/
def at? (frames : List Frame) (index : Nat) : Option PathStep :=
  (timeline frames)[index]?.join

/-- The steps before a position, last first. -/
def before (frames : List Frame) (index : Nat) : List PathStep :=
  ((timeline (frames.take index)).filterMap id).reverse

/-- The timeline of a path is that of its beginning, and then that of its rest over the steps of the
beginning. -/
theorem timelineFrom_append (index : Nat) (earlier : List PathStep) (first second : List Frame) :
    timelineFrom index earlier (first ++ second) = timelineFrom index earlier first ++
      timelineFrom (index + first.length)
        (((timelineFrom index earlier first).filterMap id).reverse ++ earlier) second := by
  induction first generalizing index earlier with
  | nil => rfl
  | cons frame rest ih =>
    have hindex : index + (rest.length + 1) = index + 1 + rest.length := by omega
    rw [List.cons_append, timelineFrom, timelineFrom, List.length_cons, hindex]
    cases ofFrame? index earlier frame with
    | none =>
      dsimp only
      rw [ih, List.cons_append, List.filterMap_cons_none (by rfl)]
    | some s =>
      dsimp only
      rw [ih, List.cons_append, List.filterMap_cons_some (by rfl), List.reverse_cons,
        List.append_assoc, List.singleton_append]

/-- A timeline has an entry for every frame. -/
@[simp] theorem length_timelineFrom (index : Nat) (earlier : List PathStep) (frames : List Frame) :
    (timelineFrom index earlier frames).length = frames.length := by
  induction frames generalizing index earlier with
  | nil => rfl
  | cons frame rest ih =>
    rw [timelineFrom]
    split <;> rw [List.length_cons, List.length_cons, ih]

/-- A timeline is that of the first frames, continued with the others. -/
theorem timeline_eq_append (frames : List Frame) {index : Nat} (h : index ≤ frames.length) :
    timeline frames = timeline (frames.take index) ++
      timelineFrom index (before frames index) (frames.drop index) := by
  conv_lhs => rw [← List.take_append_drop index frames]
  rw [timeline, timelineFrom_append, List.length_take_of_le h, Nat.zero_add, List.append_nil]
  rfl

/-- The timeline of the first frames is the beginning of the timeline. -/
theorem timeline_take (frames : List Frame) (index : Nat) :
    timeline (frames.take index) = (timeline frames).take index := by
  rcases Nat.le_total index frames.length with hle | hle
  · have hlength : (timeline (frames.take index)).length = index := by
      rw [timeline, length_timelineFrom, List.length_take_of_le hle]
    rw [timeline_eq_append frames hle, List.take_append_of_le_length (Nat.le_of_eq hlength.symm),
      List.take_of_length_le (Nat.le_of_eq hlength)]
  · rw [List.take_of_length_le hle, List.take_of_length_le]
    rwa [timeline, length_timelineFrom]

/-- The step at a position depends on the frame there and on the steps before. -/
theorem at?_eq (frames : List Frame) (index : Nat) :
    at? frames index = frames[index]?.bind (ofFrame? index (before frames index)) := by
  rcases Nat.lt_or_ge index frames.length with hlt | hge
  · have hlength : (timeline (frames.take index)).length = index := by
      rw [timeline, length_timelineFrom, List.length_take_of_le (Nat.le_of_lt hlt)]
    rw [at?, timeline_eq_append frames (Nat.le_of_lt hlt), List.getElem?_append_right (by omega),
      hlength, Nat.sub_self, List.drop_eq_getElem_cons hlt, List.getElem?_eq_getElem hlt,
      Option.bind_some, timelineFrom]
    cases ofFrame? index (before frames index) frames[index] <;> rfl
  · rw [at?, List.getElem?_eq_none hge, List.getElem?_eq_none]
    · rfl
    · rwa [timeline, length_timelineFrom]

/-- The step at a position is the one that its frame selects. -/
theorem map_at? (frames : List Frame) (index : Nat) :
    (at? frames index).map (fun s => (s.op, s.step)) = selectedAt? frames index := by
  rw [at?_eq, selectedAt?]
  cases frames[index]? with
  | none => rfl
  | some frame =>
    rw [Option.bind_some, Option.bind_some, ofFrame?, Option.map_map]
    cases frame.selectedStep? <;> rfl

/-- A step knows its position. -/
theorem frame_of_at? {index : Nat} {s : PathStep} (h : at? frames index = some s) :
    s.frame = index := by
  rw [at?_eq, Option.bind_eq_some_iff] at h
  obtain ⟨frame, -, hstep⟩ := h
  obtain ⟨selected, -, rfl⟩ := Option.map_eq_some_iff.mp hstep
  rfl

/-- The step at an index is the one selected in its frame. -/
theorem selectedAt?_of_at? {index : Nat} {s : PathStep} (h : at? frames index = some s) :
    selectedAt? frames index = some (s.op, s.step) := by
  rw [← map_at?, h, Option.map_some]

/-- A frame with a selected step has a step in the timeline. -/
theorem exists_at? {index : Nat} {selected : OperationId × PendingStep}
    (h : selectedAt? frames index = some selected) :
    ∃ s, at? frames index = some s ∧ (s.op, s.step) = selected := by
  rwa [← map_at?, Option.map_eq_some_iff] at h

/-- The steps before a position begin with the one just before it. -/
theorem before_succ (frames : List Frame) (index : Nat) :
    before frames (index + 1) = (at? frames index).toList ++ before frames index := by
  rw [before, before, timeline_take, timeline_take, List.take_add_one, List.filterMap_append,
    List.reverse_append, at?]
  cases (timeline frames)[index]? with
  | none => rfl
  | some s => cases s <;> rfl

/-- Looking for a step backwards finds the latest one. -/
theorem find?_before_eq_some (holds : PathStep → Bool) {position : Nat} {s : PathStep} :
    (before frames position).find? holds = some s ↔
      s.frame < position ∧ at? frames s.frame = some s ∧ holds s = true ∧
        ∀ later, s.frame < later → later < position →
          ∀ t, at? frames later = some t → holds t = false := by
  induction position with
  | zero => simp [before, timeline, timelineFrom]
  | succ position ih =>
    by_cases hskip : ∀ t, at? frames position = some t → holds t = false
    · have hfind : (before frames (position + 1)).find? holds =
          (before frames position).find? holds := by
        rw [before_succ, List.find?_append]
        cases hat : at? frames position with
        | none => rfl
        | some t => rw [Option.toList_some, List.find?_singleton, hskip t hat]; rfl
      rw [hfind, ih]
      constructor
      · rintro ⟨hlt, hs, hholds, hlatest⟩
        refine ⟨by omega, hs, hholds, fun later hlater hposition t ht => ?_⟩
        rcases Nat.lt_succ_iff_lt_or_eq.mp hposition with hearlier | rfl
        · exact hlatest later hlater hearlier t ht
        · exact hskip t ht
      · rintro ⟨hlt, hs, hholds, hlatest⟩
        rcases Nat.lt_succ_iff_lt_or_eq.mp hlt with hearlier | heq
        · exact ⟨hearlier, hs, hholds, fun later hlater hposition =>
            hlatest later hlater (by omega)⟩
        · rw [hskip s (heq ▸ hs)] at hholds
          cases hholds
    · push Not at hskip
      obtain ⟨last, hlast, hholds⟩ := hskip
      rw [ne_eq, Bool.not_eq_false] at hholds
      have hframe := frame_of_at? hlast
      rw [before_succ, hlast, Option.toList_some, List.singleton_append, List.find?_cons_of_pos hholds,
        Option.some.injEq]
      constructor
      · rintro rfl
        exact ⟨by omega, hframe ▸ hlast, hholds, fun later hlater hposition => by omega⟩
      · rintro ⟨hlt, hs, -, hlatest⟩
        rcases Nat.lt_succ_iff_lt_or_eq.mp hlt with hearlier | heq
        · rw [hlatest position hearlier (Nat.lt_succ_self _) last hlast] at hholds
          cases hholds
        · rw [heq, hlast] at hs
          exact Option.some.inj hs

/-- A step is the latest one with a property if it is found when looking backwards. -/
theorem isLatest_iff {holds : PathStep → Bool} {property : OperationId × PendingStep → Prop}
    (hiff : ∀ s, holds s = true ↔ property (s.op, s.step)) {position index : Nat} :
    IsLatest frames property index position ↔
      ∃ s, at? frames index = some s ∧ (before frames position).find? holds = some s := by
  have hnot (s : PathStep) : holds s = false ↔ ¬ property (s.op, s.step) := by
    rw [← hiff, Bool.not_eq_true]
  constructor
  · rintro ⟨hlt, ⟨step, hstep, hproperty⟩, hlatest⟩
    obtain ⟨s, hs, rfl⟩ := exists_at? hstep
    obtain rfl := frame_of_at? hs
    exact ⟨s, hs, find?_before_eq_some holds |>.mpr ⟨hlt, hs, (hiff s).mpr hproperty,
      fun later hlater hposition t ht =>
        (hnot t).mpr (hlatest later hlater hposition _ (selectedAt?_of_at? ht))⟩⟩
  · rintro ⟨s, hs, hfind⟩
    obtain rfl := frame_of_at? hs
    obtain ⟨hlt, -, hholds, hlatest⟩ := (find?_before_eq_some holds).mp hfind
    refine ⟨hlt, ⟨_, selectedAt?_of_at? hs, (hiff s).mp hholds⟩,
      fun later hlater hposition step hstep => ?_⟩
    obtain ⟨t, ht, rfl⟩ := exists_at? hstep
    exact (hnot t).mp (hlatest later hlater hposition t ht)

/-- The step of an operation just before a position. -/
theorem isLatest_op_iff {op : OperationId} {position index : Nat} :
    IsLatest frames (fun other => other.1 = op) index position ↔
      ∃ s, at? frames index = some s ∧
        (before frames position).find? (fun s => s.op = op) = some s :=
  isLatest_iff fun _ => decide_eq_true_iff

/-! ### Clocks and causes -/

/-- The clock that a step starts from: that of the previous step of its operation. -/
def ownClock (frames : List Frame) (s : PathStep) : VectorClock :=
  (clockOf? s.op (before frames s.frame)).getD {}

/-- The clock of a step counts it after merging the clocks of its causes. -/
theorem clock_of_at? {index : Nat} {s : PathStep} (h : at? frames index = some s) :
    ∃ frame, frames[index]? = some frame ∧ frame.selectedStep? = some (s.op, s.step) ∧
      s.clock = ((causes frame s.op s.step (before frames index)).foldl VectorClock.merge
        (ownClock frames s)).tick s.op := by
  obtain rfl := frame_of_at? h
  rw [at?_eq, Option.bind_eq_some_iff] at h
  obtain ⟨frame, hframe, hstep⟩ := h
  obtain ⟨⟨op, step⟩, hselected, heq⟩ := Option.map_eq_some_iff.mp hstep
  refine ⟨frame, hframe, ?_, ?_⟩
  · rw [hselected, ← heq]
  · rw [ownClock, ← heq]

/-- The operations that a join orders before itself. -/
theorem mem_joined_iff {frame : Frame} {step : PendingStep} {id : OperationId} :
    id ∈ joined frame step ↔ step.Joins id ∧ frame.pending[id.index]? = some none := by
  have htargets : id ∈ (if step.joinTargets.isEmpty then [⟨step.targetId⟩]
      else step.joinTargets.toList) ↔ step.Joins id := by
    rw [PendingStep.Joins]
    split
    · rw [List.mem_singleton]
      exact ⟨fun h => congrArg OperationId.index h, fun h => by cases id; exact congrArg _ h⟩
    · exact OpSet.mem_toList
  rw [joined, List.mem_filter, htargets, decide_eq_true_eq]

/-- A clock that a step merges is the clock of one of its causes. -/
theorem exists_cause_of_mem {frame : Frame} {op : OperationId} {step : PendingStep} {position : Nat}
    {clock : VectorClock} (hframe : frames[position]? = some frame)
    (hstep : frame.selectedStep? = some (op, step))
    (hclock : clock ∈ causes frame op step (before frames position)) :
    ∃ index s, Causes frames index position ∧ at? frames index = some s ∧ s.clock = clock := by
  have hselected : selectedAt? frames position = some (op, step) := by
    rw [selectedAt?, hframe, Option.bind_some, hstep]
  rw [causes] at hclock
  split at hclock
  · next hkind =>
    split at hclock
    · next send hsend =>
      rw [Option.mem_toList, Option.map_eq_some_iff] at hclock
      obtain ⟨s, hfind, rfl⟩ := hclock
      obtain ⟨hlt, hs, hframeOf, -⟩ := (find?_before_eq_some _).mp hfind
      have heq : s.frame = send := of_decide_eq_true hframeOf
      exact ⟨s.frame, s, .message hframe hstep hkind (heq ▸ hsend) hlt, hs, rfl⟩
    · cases hclock
  · next hkind =>
    rw [Option.mem_toList, Option.map_eq_some_iff] at hclock
    obtain ⟨s, hfind, rfl⟩ := hclock
    have hs := ((find?_before_eq_some _).mp hfind).2.1
    refine ⟨s.frame, s, .creation hselected hkind ?_, hs, rfl⟩
    refine (isLatest_iff fun t => ?_).mpr ⟨s, hs, hfind⟩
    rw [Bool.and_eq_true, decide_eq_true_eq, decide_eq_true_eq]
  · next hkind =>
    obtain ⟨target, htarget, hlast⟩ := List.mem_filterMap.mp hclock
    obtain ⟨hjoins, hcompleted⟩ := mem_joined_iff.mp htarget
    obtain ⟨s, hfind, rfl⟩ := Option.map_eq_some_iff.mp hlast
    have hs := ((find?_before_eq_some _).mp hfind).2.1
    exact ⟨s.frame, s, .join hframe hstep hkind hjoins hcompleted
      (isLatest_op_iff.mpr ⟨s, hs, hfind⟩), hs, rfl⟩
  · cases hclock

/-- A cause of a step is the previous step of its operation, or its clock is merged. -/
theorem clock_of_causes {index : Nat} {c s : PathStep} {frame : Frame}
    (h : Causes frames index s.frame) (hc : at? frames index = some c)
    (hframe : frames[s.frame]? = some frame)
    (hselected : frame.selectedStep? = some (s.op, s.step)) :
    c.clock = ownClock frames s ∨ c.clock ∈ causes frame s.op s.step (before frames s.frame) := by
  have hat : selectedAt? frames s.frame = some (s.op, s.step) := by
    rw [selectedAt?, hframe, Option.bind_some, hselected]
  cases h with
  | program hstep hlatest =>
    rw [hat] at hstep
    cases hstep
    obtain ⟨t, ht, hfind⟩ := isLatest_op_iff.mp hlatest
    obtain rfl : c = t := Option.some.inj (hc.symm.trans ht)
    exact .inl (by rw [ownClock, clockOf?, hfind]; rfl)
  | message hframe' hstep hkind hsend hlt =>
    rw [hframe] at hframe'
    cases hframe'
    rw [hselected] at hstep
    cases hstep
    obtain rfl := frame_of_at? hc
    have hfind : (before frames s.frame).find? (fun t => t.frame = c.frame) = some c := by
      refine (find?_before_eq_some _).mpr ⟨hlt, hc, decide_eq_true rfl, fun later hlater _ t ht => ?_⟩
      rw [decide_eq_false_iff_not, frame_of_at? ht]
      omega
    refine .inr ?_
    rw [causes, hkind]
    dsimp only
    rw [hsend]
    dsimp only
    rw [hfind]
    exact List.mem_singleton_self _
  | creation hstep hkind hlatest =>
    rw [hat] at hstep
    cases hstep
    have hcreated (t : PathStep) :
        (decide (t.step.kind = .create) && decide (t.step.targetId = s.op.index)) = true ↔
          t.step.kind = .create ∧ t.step.targetId = s.op.index := by
      rw [Bool.and_eq_true, decide_eq_true_eq, decide_eq_true_eq]
    obtain ⟨t, ht, hfind⟩ := (isLatest_iff hcreated).mp hlatest
    obtain rfl : c = t := Option.some.inj (hc.symm.trans ht)
    refine .inr ?_
    rw [causes, hkind]
    dsimp only
    rw [hfind]
    exact List.mem_singleton_self _
  | join hframe' hstep hkind hjoins hcompleted hlatest =>
    rw [hframe] at hframe'
    cases hframe'
    rw [hselected] at hstep
    cases hstep
    obtain ⟨t, ht, hfind⟩ := isLatest_op_iff.mp hlatest
    obtain rfl : c = t := Option.some.inj (hc.symm.trans ht)
    refine .inr ?_
    rw [causes, hkind]
    exact List.mem_filterMap.mpr ⟨_, mem_joined_iff.mpr ⟨hjoins, hcompleted⟩,
      by rw [clockOf?, hfind]; rfl⟩

/-- The clock of a cause is nowhere larger. -/
theorem get_le_of_causes {index position : Nat} {c s : PathStep} (h : Causes frames index position)
    (hc : at? frames index = some c) (hs : at? frames position = some s) (op : OperationId) :
    c.clock.get op ≤ s.clock.get op := by
  obtain ⟨frame, hframe, hselected, hclock⟩ := clock_of_at? hs
  obtain rfl := frame_of_at? hs
  rw [hclock, VectorClock.get_tick]
  refine Nat.le_add_right_of_le ?_
  rcases clock_of_causes h hc hframe hselected with hown | hmerged
  · rw [hown]
    exact VectorClock.get_le_foldl_merge op _ _
  · exact VectorClock.get_le_foldl_merge_of_mem op _ hmerged

/-- Only a selected step has a cause. -/
theorem exists_at?_of_causes {index position : Nat} (h : Causes frames index position) :
    ∃ s, at? frames position = some s := by
  have hselected : ∃ selected, selectedAt? frames position = some selected := by
    cases h with
    | program hstep _ => exact ⟨_, hstep⟩
    | message hframe hstep => exact ⟨_, by rw [selectedAt?, hframe, Option.bind_some, hstep]⟩
    | creation hstep => exact ⟨_, hstep⟩
    | join hframe hstep => exact ⟨_, by rw [selectedAt?, hframe, Option.bind_some, hstep]⟩
  obtain ⟨selected, hselected⟩ := hselected
  obtain ⟨s, hs, -⟩ := exists_at? hselected
  exact ⟨s, hs⟩

/-- The clock of an earlier step in the order of causes is nowhere larger. -/
theorem get_le_of_happensBefore {index position : Nat} {c s : PathStep}
    (h : HappensBefore frames index position) (hc : at? frames index = some c)
    (hs : at? frames position = some s) (op : OperationId) : c.clock.get op ≤ s.clock.get op := by
  induction h generalizing s with
  | single hcause => exact get_le_of_causes hcause hc hs op
  | tail hbefore hcause ih =>
    obtain ⟨middle, -, hlast⟩ := Relation.TransGen.tail'_iff.mp hbefore
    obtain ⟨t, ht⟩ := exists_at?_of_causes hlast
    exact (ih ht).trans (get_le_of_causes hcause ht hs op)

/-- The steps before a position are those at the earlier positions. -/
theorem mem_before_iff {position : Nat} {s : PathStep} :
    s ∈ before frames position ↔ s.frame < position ∧ at? frames s.frame = some s := by
  induction position with
  | zero => simp [before, timeline, timelineFrom]
  | succ position ih =>
    rw [before_succ, List.mem_append, Option.mem_toList, ih, Nat.lt_succ_iff_lt_or_eq]
    constructor
    · rintro (hat | ⟨hlt, hs⟩)
      · obtain rfl := frame_of_at? hat
        exact ⟨.inr rfl, hat⟩
      · exact ⟨.inl hlt, hs⟩
    · rintro ⟨hlt | rfl, hs⟩
      · exact .inr ⟨hlt, hs⟩
      · exact .inl hs

/-- A step of an operation that has had a step before comes after its previous one. -/
theorem exists_previous {index position : Nat} {c : PathStep} (hc : at? frames index = some c)
    (hlt : index < position) :
    ∃ t, index ≤ t.frame ∧ at? frames t.frame = some t ∧ t.op = c.op ∧
      IsLatest frames (fun other => other.1 = c.op) t.frame position := by
  obtain rfl := frame_of_at? hc
  have hsome : ((before frames position).find? fun t => t.op = c.op).isSome :=
    List.find?_isSome.mpr ⟨c, mem_before_iff.mpr ⟨hlt, hc⟩, decide_eq_true rfl⟩
  obtain ⟨t, hfind⟩ := Option.isSome_iff_exists.mp hsome
  obtain ⟨-, ht, hop, hlatest⟩ := (find?_before_eq_some _).mp hfind
  refine ⟨t, ?_, ht, of_decide_eq_true hop, isLatest_op_iff.mpr ⟨t, ht, hfind⟩⟩
  by_contra hless
  have hskipped := hlatest c.frame (by omega) hlt c hc
  exact absurd rfl (decide_eq_false_iff_not.mp hskipped)

/-- The steps of one operation are in the order of causes, and its own entry in their clocks counts
them. -/
theorem happensBefore_of_op_eq {index position : Nat} {c s : PathStep}
    (hc : at? frames index = some c) (hs : at? frames position = some s) (hop : c.op = s.op)
    (hlt : index < position) :
    HappensBefore frames index position ∧ c.clock.get s.op < s.clock.get s.op := by
  induction position using Nat.strong_induction_on generalizing s with
  | _ position ih =>
    obtain ⟨t, hle, ht, htop, hlatest⟩ := exists_previous hc hlt
    rw [hop] at htop hlatest
    have hcause : Causes frames t.frame position := .program (selectedAt?_of_at? hs) hlatest
    have hcounted : t.clock.get s.op < s.clock.get s.op := by
      obtain ⟨frame, -, -, hclock⟩ := clock_of_at? hs
      obtain ⟨t', ht', hfind⟩ := isLatest_op_iff.mp hlatest
      obtain rfl : t = t' := Option.some.inj (ht.symm.trans ht')
      obtain rfl := frame_of_at? hs
      have hown : ownClock frames s = t.clock := by rw [ownClock, clockOf?, hfind]; rfl
      rw [hclock, VectorClock.get_tick, if_pos rfl, hown]
      exact Nat.lt_succ_of_le (VectorClock.get_le_foldl_merge _ _ _)
    rcases Nat.lt_or_eq_of_le hle with hearlier | rfl
    · obtain ⟨hbefore, hless⟩ := ih t.frame hcause.lt ht (hop.trans htop.symm) hearlier
      rw [htop] at hless
      exact ⟨hbefore.tail hcause, hless.trans hcounted⟩
    · obtain rfl : c = t := Option.some.inj (hc.symm.trans ht)
      exact ⟨.single hcause, hcounted⟩

/-- A step counts itself. -/
theorem get_op_pos {index : Nat} {s : PathStep} (hs : at? frames index = some s) :
    0 < s.clock.get s.op := by
  obtain ⟨frame, -, -, hclock⟩ := clock_of_at? hs
  rw [hclock, VectorClock.get_tick, if_pos rfl]
  exact Nat.succ_pos _

/-- An entry of a clock is the own entry of a step from which causes lead to the step of the clock. -/
theorem exists_source {position : Nat} {s : PathStep} {op : OperationId}
    (hs : at? frames position = some s) (hpos : 0 < s.clock.get op) :
    ∃ t, at? frames t.frame = some t ∧ t.op = op ∧ t.clock.get op = s.clock.get op ∧
      Relation.ReflTransGen (Causes frames) t.frame position := by
  induction position using Nat.strong_induction_on generalizing s with
  | _ position ih =>
    obtain rfl := frame_of_at? hs
    by_cases hop : s.op = op
    · exact ⟨s, hs, hop, rfl, .refl⟩
    obtain ⟨frame, hframe, hselected, hclock⟩ := clock_of_at? hs
    rw [hclock, VectorClock.get_tick, if_neg hop, Nat.add_zero] at hpos ⊢
    obtain ⟨source, hsource, hget⟩ := VectorClock.get_foldl_merge op (ownClock frames s)
      (causes frame s.op s.step (before frames s.frame))
    rw [hget] at hpos ⊢
    -- The entry comes from the clock of a cause, since the clock of a first step has none.
    have hcause : ∃ index c, Causes frames index s.frame ∧ at? frames index = some c ∧
        c.clock = source := by
      rcases List.mem_cons.mp hsource with rfl | hmerged
      · rw [ownClock, clockOf?] at hpos ⊢
        cases hfind : (before frames s.frame).find? fun t => t.op = s.op with
        | none =>
          rw [hfind] at hpos
          exact absurd hpos (Nat.lt_irrefl 0)
        | some c =>
          have hc := ((find?_before_eq_some _).mp hfind).2.1
          exact ⟨c.frame, c, .program (selectedAt?_of_at? hs) (isLatest_op_iff.mpr ⟨c, hc, hfind⟩),
            hc, rfl⟩
      · exact exists_cause_of_mem hframe hselected hmerged
    obtain ⟨index, c, hcause, hc, rfl⟩ := hcause
    obtain ⟨t, ht, htop, htget, hreach⟩ := ih index hcause.lt hc hpos
    exact ⟨t, ht, htop, htget, hreach.tail hcause⟩

/-- The vector clocks of two steps are in the order of the steps. -/
theorem happensBefore_clock_iff {index position : Nat} {c s : PathStep}
    (hc : at? frames index = some c) (hs : at? frames position = some s) (hne : index ≠ position) :
    c.clock.happensBefore s.clock = true ↔ HappensBefore frames index position := by
  rw [VectorClock.happensBefore_iff]
  constructor
  · rintro ⟨hle, -⟩
    have hpos : 0 < s.clock.get c.op := (get_op_pos hc).trans_le (hle c.op)
    obtain ⟨t, ht, htop, htget, hreach⟩ := exists_source hs hpos
    have hnotBefore : index ≤ t.frame := by
      by_contra hless
      have hgrows := (happensBefore_of_op_eq ht hc htop (by omega)).2
      have := hle c.op
      omega
    have hfrom : Relation.ReflTransGen (Causes frames) index position := by
      rcases Nat.lt_or_eq_of_le hnotBefore with hlt | rfl
      · exact (happensBefore_of_op_eq hc ht htop.symm hlt).1.to_reflTransGen.trans hreach
      · exact hreach
    exact (Relation.reflTransGen_iff_eq_or_transGen.mp hfrom).resolve_left (Ne.symm hne)
  · intro hbefore
    refine ⟨get_le_of_happensBefore hbefore hc hs, s.op, ?_⟩
    rcases Nat.eq_zero_or_pos (c.clock.get s.op) with hzero | hpos
    · rw [hzero]
      exact get_op_pos hs
    · obtain ⟨t, ht, htop, htget, hreach⟩ := exists_source hc hpos
      have hle : t.frame ≤ index := by
        rcases Relation.reflTransGen_iff_eq_or_transGen.mp hreach with rfl | hstrict
        · exact Nat.le_refl _
        · exact Nat.le_of_lt (HappensBefore.lt hstrict)
      rw [← htget]
      exact (happensBefore_of_op_eq ht hs htop (hle.trans_lt hbefore.lt)).2

end PathStep

end ScheduleExplorer
