import ScheduleExplorer.Proofs.Strategy.Answers
import ScheduleExplorer.Strategy.DelayBounding
import ScheduleExplorer.Strategy.Priority
import ScheduleExplorer.Strategy.RandomWalk
import Mathlib.Data.List.InsertIdx
import Mathlib.Data.List.Nodup

/-!
# Walks answer faithfully

The uniform walk, the sticky walk, delay bounding and the priority schedule answer every query by a
possible answer and count it. Each of them keeps its steps in a random walk.
-/

namespace ScheduleExplorer

variable {γ : Type} [RandomSource γ]

namespace RandomWalk

/-- The clock of a walk. -/
def clock (walk : RandomWalk γ) : Clock :=
  ⟨walk.steps, walk.maxSteps⟩

/-- A draw is not a step. -/
@[simp] theorem clock_draw (bound : Nat) (walk : RandomWalk γ) :
    (walk.draw bound).2.clock = walk.clock := rfl

omit [RandomSource γ] in
/-- A step of a walk is counted. -/
@[simp] theorem clock_step (walk : RandomWalk γ) : walk.step.clock = walk.clock.tick true := rfl

/-- Preparing a walk restarts its clock. -/
@[simp] theorem clock_prepare (walk : RandomWalk γ) : walk.prepare.clock = walk.clock.restart := rfl

omit [RandomSource γ] in
/-- Resetting a walk restarts its clock. -/
@[simp] theorem clock_reset (walk : RandomWalk γ) : walk.reset.clock = walk.clock.restart := rfl

variable [BoundedRandomSource γ]

/-- A draw is a possible integer below its bound. -/
theorem draw_lt (bound : Nat) (walk : RandomWalk γ) : (walk.draw bound).1 < max bound 1 := by
  rcases Nat.eq_zero_or_pos bound with rfl | hpos
  · simp [draw, BoundedRandomSource.fst_nextBounded_zero]
  · exact Nat.lt_of_lt_of_le (BoundedRandomSource.nextBounded_lt bound walk.source hpos)
      (Nat.le_max_left bound 1)

/-- One of some operations is picked, without a step. -/
theorem pick_mem {ids : List OperationId} (hids : ids ≠ []) (walk : RandomWalk γ) :
    ∃ id ∈ ids, ∃ after, walk.pick ids = (some id, after) ∧ after.clock = walk.clock := by
  have hlt : (walk.draw ids.length).1 < ids.length := by
    have hpos := List.length_pos_of_ne_nil hids
    have hdraw := walk.draw_lt ids.length
    omega
  refine ⟨ids[(walk.draw ids.length).1], List.getElem_mem hlt, (walk.draw ids.length).2, ?_, rfl⟩
  rw [pick, if_neg (by simpa using hids)]
  simp only [List.getElem?_eq_getElem hlt]

/-- A uniform walk answers faithfully. -/
theorem answered (query : Query) (walk : RandomWalk γ) :
    query.Answered walk.clock (walk.answer query).1 (walk.answer query).2.clock := by
  cases query with
  | operation ops =>
    by_cases hempty : Operation.enabledIds ops = []
    · simp only [answer, pick, hempty, List.isEmpty_nil, if_true]
      exact .empty hempty
    · obtain ⟨id, hid, after, hpick, hclock⟩ := walk.pick_mem hempty
      simp only [answer, hpick]
      exact .some hid (by rw [clock_step, hclock])
  | boolean bound => exact .some (Query.mem_alternatives_boolean _ _) rfl
  | integer bound => exact .some (Query.mem_alternatives_integer.mpr (walk.draw_lt bound)) rfl

end RandomWalk

namespace StickyWalk

/-- The coins are no steps. -/
@[simp] theorem clock_allTails (flips : Nat) (walk : RandomWalk γ) :
    (allTails flips walk).2.clock = walk.clock := by
  induction flips generalizing walk with
  | zero => rfl
  | succ flips ih =>
    simp only [allTails]
    split
    · rfl
    · rw [ih, RandomWalk.clock_draw]

/-- A sticky walk answers faithfully. -/
theorem answered [BoundedRandomSource γ] {current : Operation} {query : Query}
    (hquery : query.IsAskedBy current) (sticky : StickyWalk γ) :
    query.Answered sticky.walk.clock (sticky.answer current query).1
      (sticky.answer current query).2.walk.clock := by
  cases query with
  | operation ops =>
    by_cases hempty : Operation.enabledIds ops = []
    · simp only [answer, hempty, List.isEmpty_nil, if_true]
      exact .empty hempty
    · simp only [answer, List.isEmpty_iff, hempty, if_false]
      generalize hflip : (if 1 < (Operation.enabledIds ops).length then
        allTails sticky.coinFlips sticky.walk.step else (true, sticky.walk.step)) = flip
      have hclock : flip.2.clock = sticky.walk.clock.tick true := by
        rw [← hflip]
        split <;> simp
      split
      · next hstay =>
        have henabled : current.isEnabled = true := (Bool.and_eq_true _ _ ▸ hstay).2
        exact .some (Operation.mem_enabledIds.mpr ⟨current, hquery.1, henabled, rfl⟩) hclock
      · obtain ⟨id, hid, after, hpick, hafter⟩ := flip.2.pick_mem hempty
        simp only [hpick]
        exact .some hid (hafter.trans hclock)
  | boolean bound => exact sticky.walk.answered (.boolean bound)
  | integer bound => exact sticky.walk.answered (.integer bound)

end StickyWalk

namespace DelayBounding

/-- Going round the table leaves the enabled operations the same. -/
theorem mem_rotated {current : Operation} {ops : List Operation} {id : OperationId} :
    id ∈ rotated current ops ↔ id ∈ Operation.enabledIds ops := by
  simp only [rotated, Operation.mem_enabledIds, List.mem_append]
  conv_rhs => rw [← List.take_append_drop ((ops.findIdx? fun op => op.id = current.id).getD 0) ops]
  simp only [List.mem_append, or_comm]

/-- Going round the table repeats no operation. -/
theorem nodup_rotated {current : Operation} {ops : List Operation}
    (h : (ops.map Operation.id).Nodup) : (rotated current ops).Nodup := by
  have hperm : (ops.drop ((ops.findIdx? fun op => op.id = current.id).getD 0) ++
      ops.take ((ops.findIdx? fun op => op.id = current.id).getD 0)).Perm ops :=
    List.perm_append_comm.trans (List.Perm.of_eq (List.take_append_drop _ ops))
  have hnodup := (hperm.map Operation.id).nodup_iff.mpr h
  exact hnodup.sublist (List.filter_sublist.map Operation.id)

/-- One of the enabled operations is chosen, without a step. -/
theorem choose_mem [BoundedRandomSource γ] {current : Operation} {enabled : List OperationId}
    (hne : enabled ≠ []) (hnodup : enabled.Nodup)
    (hcurrent : current.isEnabled = true → current.id ∈ enabled) (s : DelayBounding γ) :
    ∃ id ∈ enabled, ∃ after, s.choose current enabled = (some id, after) ∧
      after.walk.clock = s.walk.clock := by
  rw [choose]
  split
  · obtain ⟨id, rest, rfl⟩ := List.exists_cons_of_ne_nil hne
    exact ⟨id, List.mem_cons_self, s, rfl, rfl⟩
  · next hlength =>
    split
    · obtain ⟨id, hid, after, hpick, hclock⟩ := s.walk.pick_mem hne
      exact ⟨id, hid, { s with walk := after }, by simp only [hpick], hclock⟩
    · next hdisabled =>
      have hmem := hcurrent (by simpa using hdisabled)
      split
      · -- Another operation is enabled besides the running one, because no number stands twice.
        have hothers : enabled.filter (· ≠ current.id) ≠ [] := by
          intro hnone
          have hsame : ∀ id ∈ enabled, id = current.id := by
            simpa [List.filter_eq_nil_iff] using hnone
          have hle := List.nodup_iff_count_le_one.mp hnodup current.id
          rw [List.count_eq_length.mpr fun id hid => (hsame id hid).symm] at hle
          have hpos := List.length_pos_of_ne_nil hne
          omega
        obtain ⟨id, hid, after, hpick, hclock⟩ := s.walk.pick_mem hothers
        exact ⟨id, List.mem_of_mem_filter hid, { s with walk := after }, by simp only [hpick], hclock⟩
      · exact ⟨current.id, hmem, s, rfl, rfl⟩

/-- Delay bounding answers faithfully. -/
theorem answered [BoundedRandomSource γ] {current : Operation} {query : Query}
    (hquery : query.IsAskedBy current) (s : DelayBounding γ) :
    query.Answered s.walk.clock (s.answer current query).1 (s.answer current query).2.walk.clock := by
  cases query with
  | operation ops =>
    by_cases hempty : rotated current ops = []
    · simp only [answer, hempty, List.isEmpty_nil, if_true]
      refine .empty (List.eq_nil_iff_forall_not_mem.mpr fun id hid => ?_)
      have hrotated : id ∈ rotated current ops := mem_rotated.mpr hid
      rw [hempty] at hrotated
      exact List.not_mem_nil hrotated
    · obtain ⟨id, hid, after, hchoose, hclock⟩ := choose_mem hempty (nodup_rotated hquery.2)
        (fun henabled => mem_rotated.mpr
          (Operation.mem_enabledIds.mpr ⟨current, hquery.1, henabled, rfl⟩)) (s.visit current)
      simp only [answer, List.isEmpty_iff, hempty, if_false, hchoose]
      exact .some (mem_rotated.mp hid) (by rw [RandomWalk.clock_step, hclock]; rfl)
  | boolean bound => exact s.walk.answered (.boolean bound)
  | integer bound => exact s.walk.answered (.integer bound)

/-- Preparing the strategy restarts its clock. -/
@[simp] theorem clock_prepare (s : DelayBounding γ) :
    s.prepare.walk.clock = s.walk.clock.restart := by
  have hadjust : s.adjustDelays.walk = s.walk := by
    simp only [adjustDelays]
    split
    · split
      · split <;> rfl
      · rfl
    · rfl
  change s.adjustDelays.walk.prepare.clock = _
  rw [hadjust, RandomWalk.clock_prepare]

end DelayBounding

namespace PrioritySchedule

/-- Inserting operations takes no step. -/
@[simp] theorem clock_insertNew (ids : List OperationId) (s : PrioritySchedule γ) :
    (insertNew ids s).walk.clock = s.walk.clock := by
  induction ids generalizing s with
  | nil => rfl
  | cons id rest ih =>
    rw [insertNew]
    split
    · exact ih s
    · exact ih _

/-- Inserting operations keeps those that have a priority. -/
theorem mem_insertNew_of_mem {id : OperationId} {s : PrioritySchedule γ}
    (h : id ∈ s.priorities) (ids : List OperationId) : id ∈ (insertNew ids s).priorities := by
  induction ids generalizing s with
  | nil => exact h
  | cons other rest ih =>
    rw [insertNew]
    split
    · exact ih h
    · exact ih (List.subset_insertIdx _ _ _ h)

/-- Every operation that is inserted has a priority, provided that there is a head to insert it
after. -/
theorem mem_insertNew [BoundedRandomSource γ] {ids : List OperationId} {s : PrioritySchedule γ}
    (hne : s.priorities ≠ []) {id : OperationId} (hid : id ∈ ids) :
    id ∈ (insertNew ids s).priorities := by
  induction ids generalizing s with
  | nil => exact absurd hid List.not_mem_nil
  | cons other rest ih =>
    have hpos := List.length_pos_of_ne_nil hne
    have hplace : (s.walk.draw s.priorities.length).1 + 1 ≤ s.priorities.length := by
      have hdraw := s.walk.draw_lt s.priorities.length
      omega
    rw [insertNew]
    split
    · next hknown =>
      rcases List.mem_cons.mp hid with rfl | hid
      · exact mem_insertNew_of_mem (List.contains_iff_mem.mp hknown) rest
      · exact ih hne hid
    · rcases List.mem_cons.mp hid with rfl | hid
      · exact mem_insertNew_of_mem ((List.mem_insertIdx hplace).mpr (.inl rfl)) rest
      · refine ih ?_ hid
        exact List.ne_nil_of_mem ((List.mem_insertIdx hplace).mpr (.inl rfl))

omit [RandomSource γ] in
/-- A change point keeps the operations that have a priority, and takes no step. -/
theorem change_spec (enabled : List OperationId) (s : PrioritySchedule γ) :
    (s.change enabled).walk.clock = s.walk.clock ∧
      ∀ id ∈ s.priorities, id ∈ (s.change enabled).priorities := by
  rw [change]
  split
  · exact ⟨rfl, fun _ hid => hid⟩
  · split
    · next top _ =>
      refine ⟨rfl, fun id hid => ?_⟩
      by_cases hsame : id = top
      · simp [demote, hsame]
      · simp [demote, hsame, hid]
    · exact ⟨rfl, fun _ hid => hid⟩

omit [RandomSource γ] in
/-- An enabled operation with a priority makes one of them the highest. -/
theorem highest?_eq_some {enabled : List OperationId} {s : PrioritySchedule γ} {id : OperationId}
    (henabled : id ∈ enabled) (hknown : id ∈ s.priorities) :
    ∃ top ∈ enabled, s.highest? enabled = some top := by
  obtain ⟨top, htop⟩ := Option.isSome_iff_exists.mp (List.find?_isSome.mpr
    ⟨id, hknown, List.contains_iff_mem.mpr henabled⟩)
  exact ⟨top, List.contains_iff_mem.mp (List.find?_some htop), htop⟩

/-- A priority schedule answers faithfully. -/
theorem answered [BoundedRandomSource γ] (current : Operation) (query : Query)
    (s : PrioritySchedule γ) :
    query.Answered s.walk.clock (s.answer current query).1 (s.answer current query).2.walk.clock := by
  cases query with
  | operation ops =>
    by_cases hempty : Operation.enabledIds ops = []
    · simp only [answer, hempty, List.isEmpty_nil, if_true]
      exact .empty hempty
    · obtain ⟨id, rest, hcons⟩ := List.exists_cons_of_ne_nil hempty
      have hid : id ∈ Operation.enabledIds ops := hcons ▸ List.mem_cons_self
      simp only [answer, List.isEmpty_iff, hempty, if_false]
      generalize hhead : (if s.priorities = [] then { s with priorities := [current.id] }
        else s) = headed
      have hheaded : headed.priorities ≠ [] ∧ headed.walk = s.walk := by
        rw [← hhead]
        split
        · exact ⟨List.cons_ne_nil _ _, rfl⟩
        · next hne => exact ⟨hne, rfl⟩
      generalize hchange : (if (insertNew (Operation.enabledIds ops) headed).changePoints.contains
          (insertNew (Operation.enabledIds ops) headed).walk.steps then
          (insertNew (Operation.enabledIds ops) headed).change (Operation.enabledIds ops)
        else insertNew (Operation.enabledIds ops) headed) = changed
      have hchanged : changed.walk.clock = s.walk.clock ∧ id ∈ changed.priorities := by
        have hknown := mem_insertNew (s := headed) hheaded.1 hid
        obtain ⟨hclock, hkept⟩ := change_spec (Operation.enabledIds ops)
          (insertNew (Operation.enabledIds ops) headed)
        have hinsert : (insertNew (Operation.enabledIds ops) headed).walk.clock = s.walk.clock := by
          rw [clock_insertNew, hheaded.2]
        rw [← hchange]
        split
        · exact ⟨hclock.trans hinsert, hkept id hknown⟩
        · exact ⟨hinsert, hknown⟩
      obtain ⟨top, htop, hhighest⟩ := highest?_eq_some hid hchanged.2
      rw [hhighest]
      exact .some htop (by rw [RandomWalk.clock_step, hchanged.1])
  | boolean bound => exact s.walk.answered (.boolean bound)
  | integer bound => exact s.walk.answered (.integer bound)

end PrioritySchedule

end ScheduleExplorer
