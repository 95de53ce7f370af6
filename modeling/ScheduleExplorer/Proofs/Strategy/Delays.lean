import ScheduleExplorer.Proofs.Random.Lawful
import ScheduleExplorer.Proofs.Strategy.Points
import ScheduleExplorer.Proofs.Strategy.Walks
import Mathlib.Data.List.Nodup

/-!
# Delays and preemptions

A delay-bounded strategy is asked, moved on and reset in some order. The delay points of an iteration
are as many different steps as delays are allowed, or all steps of the longest iteration since the
last reset if it was shorter.

In the iteration that follows, the running operation loses its turn to another one only at a delay
point, and there it always does if another one is enabled. Every step is passed once, so no more
turns are lost in this way than delays are allowed. An operation that is not enabled loses nothing.
-/

namespace ScheduleExplorer

namespace DelayBounding

variable {γ : Type} [RandomSource γ]

/-! ### Histories -/

/-- A call of a strategy, which is asked, moved on or reset. -/
inductive Call where
  | answer (current : Operation) (query : Query)
  | prepare
  | reset

/-- The strategy after a call. -/
def perform (s : DelayBounding γ) : Call → DelayBounding γ
  | .answer current query => (s.answer current query).2
  | .prepare => s.prepare
  | .reset => s.reset

/-- The strategy after a history, in which the last call stands first. -/
def after (s : DelayBounding γ) : List Call → DelayBounding γ
  | [] => s
  | call :: past => (s.after past).perform call

namespace Call

/-- Whether a call is a step: a query that has an answer. -/
def isStep : Call → Bool
  | answer _ query => !query.alternatives.isEmpty
  | prepare | reset => false

/-- A query within an iteration. A query for an operation comes with a table that holds the running
one. -/
def IsAsked : Call → Prop
  | answer current (.operation ops) => current ∈ ops
  | answer .. => True
  | prepare | reset => False

/-- The steps since the iteration began. -/
def steps : List Call → Nat
  | [] | prepare :: _ | reset :: _ => 0
  | answer current query :: past => steps past + (isStep (answer current query)).toNat

/-- The steps of the iterations that have ended since the last reset. -/
def lengths : List Call → List Nat
  | [] | reset :: _ => []
  | prepare :: past => steps past :: lengths past
  | answer .. :: past => lengths past

/-- The steps of the longest iteration that has ended since the last reset. -/
def longest (past : List Call) : Nat :=
  (lengths past).foldr max 0

end Call

/-! ### What a call changes -/

/-- A pick is no step. -/
theorem steps_pick (ids : List OperationId) (walk : RandomWalk γ) :
    (walk.pick ids).2.steps = walk.steps := by
  rw [RandomWalk.pick]
  split <;> rfl

/-- A choice changes the walk alone, and is no step. -/
theorem choose_eq (current : Operation) (enabled : List OperationId) (s : DelayBounding γ) :
    ∃ walk, (s.choose current enabled).2 = { s with walk } ∧ walk.steps = s.walk.steps := by
  rw [choose]
  split
  · exact ⟨s.walk, rfl, rfl⟩
  · split
    · exact ⟨_, rfl, steps_pick _ _⟩
    · split
      · exact ⟨_, rfl, steps_pick _ _⟩
      · exact ⟨s.walk, rfl, rfl⟩

/-- An answer visits the state and changes the walk, which counts it if it is a step. -/
theorem answer_eq (current : Operation) (query : Query) (s : DelayBounding γ) :
    ∃ walk, (s.answer current query).2 = { s.visit current with walk } ∧
      walk.steps = s.walk.steps + (Call.isStep (.answer current query)).toNat := by
  cases query with
  | operation ops =>
    have hempty : (rotated current ops).isEmpty = (Operation.enabledIds ops).isEmpty := by
      rw [Bool.eq_iff_iff, List.isEmpty_iff, List.isEmpty_iff, List.eq_nil_iff_forall_not_mem,
        List.eq_nil_iff_forall_not_mem]
      simp only [mem_rotated]
    rw [answer, Call.isStep, Query.alternatives, ← hempty]
    dsimp only
    split
    · next hnone => exact ⟨s.walk, rfl, by rw [hnone]; rfl⟩
    · next hsome =>
      obtain ⟨walk, hchoose, hsteps⟩ := choose_eq current (rotated current ops) (s.visit current)
      refine ⟨walk.step, by rw [hchoose], ?_⟩
      rw [Bool.not_eq_true] at hsome
      rw [hsome, RandomWalk.step, hsteps]
      rfl
  | boolean bound => exact ⟨_, rfl, rfl⟩
  | integer bound =>
    have hvalue : (Query.integer bound).IsValue := trivial
    refine ⟨_, rfl, ?_⟩
    rw [Call.isStep, List.isEmpty_eq_false_iff.mpr hvalue.alternatives_ne_nil]
    rfl

omit [RandomSource γ] in
/-- Adjusting the number of delays changes nothing but what it counts. -/
theorem adjustDelays_eq (s : DelayBounding γ) :
    s.adjustDelays.walk = s.walk ∧ s.adjustDelays.scheduleLength = s.scheduleLength := by
  rw [adjustDelays]
  split
  · dsimp only
    split
    · split <;> exact ⟨rfl, rfl⟩
    · exact ⟨rfl, rfl⟩
  · exact ⟨rfl, rfl⟩

/-- The next iteration has as many delay points as delays are allowed, or as there are steps. -/
theorem size_delayPoints_prepare (s : DelayBounding γ) :
    s.prepare.delayPoints.size = min s.prepare.maxDelays s.prepare.scheduleLength :=
  Points.size_sample _ _ _

/-- The delay points of the next iteration are steps of the longest iteration. -/
theorem lt_of_mem_delayPoints_prepare {s : DelayBounding γ} {point : Nat}
    (h : point ∈ s.prepare.delayPoints) : point < s.prepare.scheduleLength :=
  Points.lt_of_mem_sample h

/-- The schedule length is that of the longest iteration so far. -/
theorem scheduleLength_prepare (s : DelayBounding γ) :
    s.prepare.scheduleLength = max s.walk.steps s.scheduleLength := by
  change max s.adjustDelays.scheduleLength s.adjustDelays.walk.steps = _
  rw [s.adjustDelays_eq.1, s.adjustDelays_eq.2, max_comm]

/-- The strategy counts the steps of the iteration and knows the longest one. -/
theorem length_after (source : γ) (maxSteps maxDelays : Nat) (isIterative : Bool)
    (level : AbstractionLevel) (past : List Call) :
    ((ofSource source maxSteps maxDelays isIterative level).after past).walk.steps =
        Call.steps past ∧
      ((ofSource source maxSteps maxDelays isIterative level).after past).scheduleLength =
        Call.longest past := by
  induction past with
  | nil => exact ⟨rfl, rfl⟩
  | cons call past ih =>
    obtain ⟨hsteps, hlength⟩ := ih
    cases call with
    | answer current query =>
      obtain ⟨walk, heq, hwalk⟩ := answer_eq current query
        ((ofSource source maxSteps maxDelays isIterative level).after past)
      rw [after, perform, heq]
      exact ⟨hwalk.trans (by rw [hsteps]; rfl), hlength⟩
    | prepare =>
      refine ⟨rfl, ?_⟩
      rw [after, perform, scheduleLength_prepare, hsteps, hlength]
      rfl
    | reset => exact ⟨rfl, rfl⟩

/-! ### Losing a turn -/

/-- Whether an enabled operation loses its turn to another one. -/
def preempts (s : DelayBounding γ) : Call → Bool
  | .answer current (.operation ops) =>
    current.isEnabled && (s.answer current (.operation ops)).1.any (· ≠ current.id)
  | _ => false

/-- The steps of an iteration at which an enabled operation loses its turn to another one. -/
def preemptionSteps (s : DelayBounding γ) : List Call → List Nat
  | [] => []
  | call :: past =>
    if (s.after past).preempts call then (s.after past).walk.steps :: s.preemptionSteps past
    else s.preemptionSteps past

/-- A list that is not empty has a member that is picked. -/
theorem exists_pick {ids : List OperationId} (hids : ids ≠ [])
    (hdraws : ∀ (bound : Nat) (source : γ), 0 < bound →
      (RandomSource.nextBounded bound source).1 < bound) (walk : RandomWalk γ) :
    ∃ id ∈ ids, (walk.pick ids).1 = some id := by
  have hlt := hdraws ids.length walk.source (List.length_pos_of_ne_nil hids)
  refine ⟨ids[(walk.draw ids.length).1], List.getElem_mem hlt, ?_⟩
  rw [RandomWalk.pick, if_neg (by rwa [List.isEmpty_iff])]
  exact List.getElem?_eq_getElem hlt

/-- If the running operation can go on, there is a choice. -/
theorem fst_answer_operation {current : Operation} {ops : List Operation}
    (hrunning : current.id ∈ rotated current ops) (s : DelayBounding γ) :
    (s.answer current (.operation ops)).1 =
      ((s.visit current).choose current (rotated current ops)).1 := by
  rw [answer]
  dsimp only
  rw [if_neg (by rw [List.isEmpty_iff]; exact List.ne_nil_of_mem hrunning)]

/-- Where another operation is enabled too, the running one loses its turn exactly at a delay
point. -/
theorem answer_contended {current : Operation} {ops : List Operation} (hcurrent : current ∈ ops)
    (henabled : current.isEnabled = true)
    (hother : ∃ other ∈ ops, other.isEnabled = true ∧ other.id ≠ current.id)
    (hdraws : ∀ (bound : Nat) (source : γ), 0 < bound →
      (RandomSource.nextBounded bound source).1 < bound) (s : DelayBounding γ) :
    ∃ id, (s.answer current (.operation ops)).1 = some id ∧
      (id ≠ current.id ↔ s.walk.steps ∈ s.delayPoints) := by
  obtain ⟨other, hmem, hotherEnabled, hne⟩ := hother
  have hrunning : current.id ∈ rotated current ops :=
    mem_rotated.mpr (Operation.mem_enabledIds.mpr ⟨current, hcurrent, henabled, rfl⟩)
  have hwaiting : other.id ∈ rotated current ops :=
    mem_rotated.mpr (Operation.mem_enabledIds.mpr ⟨other, hmem, hotherEnabled, rfl⟩)
  -- Two operations are enabled, so the choice is not forced.
  have hlength : (rotated current ops).length ≠ 1 := by
    intro hone
    obtain ⟨only, honly⟩ := List.length_eq_one_iff.mp hone
    rw [honly, List.mem_singleton] at hrunning hwaiting
    exact hne (hwaiting.trans hrunning.symm)
  rw [fst_answer_operation hrunning, choose, if_neg hlength, if_neg (by rw [henabled]; decide)]
  split
  · next hpoint =>
    have hothers : (rotated current ops).filter (· ≠ current.id) ≠ [] :=
      List.ne_nil_of_mem (List.mem_filter.mpr ⟨hwaiting, by simpa using hne⟩)
    obtain ⟨id, hid, hpick⟩ := exists_pick hothers hdraws s.walk
    have hdiffers : id ≠ current.id := by simpa using (List.mem_filter.mp hid).2
    exact ⟨id, hpick, fun _ => hpoint, fun _ => hdiffers⟩
  · next hpoint =>
    exact ⟨current.id, rfl, fun hdiffers => absurd rfl hdiffers, fun hmem => absurd hmem hpoint⟩

/-- A turn is lost to another operation only by a step at a delay point. -/
theorem mem_delayPoints_of_preempts {s : DelayBounding γ} {call : Call} (hasked : call.IsAsked)
    (h : s.preempts call = true) : s.walk.steps ∈ s.delayPoints ∧ call.isStep = true := by
  cases call with
  | answer current query =>
    cases query with
    | operation ops =>
      obtain ⟨henabled, hlost⟩ := Bool.and_eq_true_iff.mp h
      have hids : current.id ∈ Operation.enabledIds ops :=
        Operation.mem_enabledIds.mpr ⟨current, hasked, henabled, rfl⟩
      have hrunning : current.id ∈ rotated current ops := mem_rotated.mpr hids
      refine ⟨?_, by simpa [Call.isStep, Query.alternatives] using List.ne_nil_of_mem hids⟩
      rw [fst_answer_operation hrunning, choose] at hlost
      by_contra hpoint
      split at hlost
      · next hone =>
        obtain ⟨only, honly⟩ := List.length_eq_one_iff.mp hone
        rw [honly, List.mem_singleton] at hrunning
        simp [honly, hrunning] at hlost
      · have hnone : ¬ (s.visit current).delayPoints.contains (s.visit current).walk.steps := hpoint
        rw [if_neg (by rw [henabled]; decide), if_neg hnone] at hlost
        simp at hlost
    | boolean => cases h
    | integer => cases h
  | prepare => cases h
  | reset => cases h

/-- Within an iteration the delay points stay as they are, and every call that is a step is
counted. -/
theorem perform_of_isAsked {call : Call} (hasked : call.IsAsked) (s : DelayBounding γ) :
    (s.perform call).delayPoints = s.delayPoints ∧
      (s.perform call).walk.steps = s.walk.steps + call.isStep.toNat := by
  cases call with
  | answer current query =>
    obtain ⟨walk, heq, hsteps⟩ := answer_eq current query s
    rw [perform, heq]
    exact ⟨rfl, hsteps⟩
  | prepare => exact hasked.elim
  | reset => exact hasked.elim

/-- Within an iteration the turns are lost at different steps, all of them passed delay points. -/
theorem preemptionSteps_spec {s : DelayBounding γ} {calls : List Call}
    (hasked : ∀ call ∈ calls, call.IsAsked) :
    (s.after calls).delayPoints = s.delayPoints ∧ (s.preemptionSteps calls).Nodup ∧
      ∀ step ∈ s.preemptionSteps calls, step ∈ s.delayPoints ∧ step < (s.after calls).walk.steps := by
  induction calls with
  | nil => exact ⟨rfl, List.nodup_nil, fun _ hstep => absurd hstep List.not_mem_nil⟩
  | cons call past ih =>
    obtain ⟨hcall, hpast⟩ := List.forall_mem_cons.mp hasked
    obtain ⟨hpoints, hnodup, hsteps⟩ := ih hpast
    obtain ⟨hkept, hcounted⟩ := perform_of_isAsked hcall (s.after past)
    rw [after, hkept, hcounted, preemptionSteps]
    refine ⟨hpoints, ?_⟩
    split
    · next hlost =>
      obtain ⟨hpoint, hstep⟩ := mem_delayPoints_of_preempts hcall hlost
      rw [hstep, Bool.toNat_true]
      refine ⟨List.nodup_cons.mpr ⟨fun hmem => absurd (hsteps _ hmem).2 (Nat.lt_irrefl _), hnodup⟩, ?_⟩
      refine List.forall_mem_cons.mpr ⟨⟨hpoints ▸ hpoint, Nat.lt_succ_self _⟩, fun step hmem => ?_⟩
      exact ⟨(hsteps step hmem).1, Nat.lt_succ_of_lt (hsteps step hmem).2⟩
    · exact ⟨hnodup, fun step hmem =>
        ⟨(hsteps step hmem).1, Nat.lt_of_lt_of_le (hsteps step hmem).2 (Nat.le_add_right _ _)⟩⟩

/-- No more turns are lost than there are delay points. -/
theorem length_preemptionSteps_le {s : DelayBounding γ} {calls : List Call}
    (hasked : ∀ call ∈ calls, call.IsAsked) :
    (s.preemptionSteps calls).length ≤ s.delayPoints.size := by
  obtain ⟨-, hnodup, hsteps⟩ := preemptionSteps_spec (s := s) hasked
  rw [← Std.TreeSet.length_toList]
  exact (hnodup.subperm fun step hmem => Std.TreeSet.mem_toList.mpr (hsteps step hmem).1).length_le

/-! ### What delay bounding guarantees -/

/-- What the delay points are for the iteration that follows a history, and what they do to the calls
of this iteration. -/
structure KeepsToDelayPoints (s : DelayBounding γ) (past iteration : List Call) : Prop where
  size : s.delayPoints.size = min s.maxDelays s.scheduleLength
  lt_scheduleLength : ∀ point ∈ s.delayPoints, point < s.scheduleLength
  scheduleLength : s.scheduleLength = Call.longest past
  /-- Where another operation is enabled too, the running one loses its turn exactly at the delay
  points. -/
  turn : ∀ (later : List Call) (current : Operation) (ops : List Operation) (earlier : List Call),
    iteration = later ++ .answer current (.operation ops) :: earlier →
    current.isEnabled = true → (∃ other ∈ ops, other.isEnabled = true ∧ other.id ≠ current.id) →
    ∃ id, ((s.after earlier).answer current (.operation ops)).1 = some id ∧
      (id ≠ current.id ↔ Call.steps earlier ∈ s.delayPoints)
  preemptions : (s.preemptionSteps iteration).length ≤ s.maxDelays

/-- The steps of an iteration are counted from its beginning. -/
theorem steps_after_of_isAsked {s : DelayBounding γ} {calls : List Call}
    (hasked : ∀ call ∈ calls, call.IsAsked) :
    (s.after calls).walk.steps = s.walk.steps + Call.steps calls := by
  induction calls with
  | nil => rfl
  | cons call past ih =>
    obtain ⟨hcall, hpast⟩ := List.forall_mem_cons.mp hasked
    rw [after, (perform_of_isAsked hcall _).2, ih hpast, Nat.add_assoc]
    cases call with
    | answer => rfl
    | prepare => exact hcall.elim
    | reset => exact hcall.elim

/-- Whatever a delay-bounded strategy has been asked before, each time it moves on it draws as many
delay points as it may, and the iteration that follows keeps to them. -/
theorem keepsToDelayPoints_of_prepare
    (hdraws : ∀ (bound : Nat) (source : γ), 0 < bound →
      (RandomSource.nextBounded bound source).1 < bound)
    (source : γ) (maxSteps maxDelays : Nat) (isIterative : Bool) (level : AbstractionLevel)
    (past : List Call) {iteration : List Call} (hasked : ∀ call ∈ iteration, call.IsAsked) :
    ((ofSource source maxSteps maxDelays isIterative level).after
      (.prepare :: past)).KeepsToDelayPoints (.prepare :: past) iteration := by
  have hsize := size_delayPoints_prepare
    ((ofSource source maxSteps maxDelays isIterative level).after past)
  refine ⟨hsize, fun point => lt_of_mem_delayPoints_prepare, (length_after ..).2, ?_, ?_⟩
  · intro later current ops earlier hiteration henabled hother
    have hearlier : ∀ call ∈ earlier, call.IsAsked := fun call hmem =>
      hasked call (hiteration ▸ List.mem_append_right _ (List.mem_cons_of_mem _ hmem))
    have hcurrent : current ∈ ops :=
      hasked (.answer current (.operation ops))
        (hiteration ▸ List.mem_append_right _ List.mem_cons_self)
    obtain ⟨id, hid, hdelay⟩ := answer_contended hcurrent henabled hother hdraws
      (((ofSource source maxSteps maxDelays isIterative level).after (.prepare :: past)).after earlier)
    refine ⟨id, hid, hdelay.trans ?_⟩
    rw [steps_after_of_isAsked hearlier, (preemptionSteps_spec hearlier).1, after, perform]
    change 0 + _ ∈ _ ↔ _
    rw [Nat.zero_add]
  · exact (length_preemptionSteps_le hasked).trans (hsize ▸ Nat.min_le_left _ _)

/-- The first of two enabled operations asks for a turn, three times. -/
def threeTurns : List Call :=
  let ops := [(Operation.new ⟨0⟩ "a").create, (Operation.new ⟨1⟩ "b").create]
  List.replicate 3 (.answer (Operation.new ⟨0⟩ "a").create (.operation ops))

/-- One delay is allowed in three steps, and it is the first of them. -/
theorem keepsToDelayPoints_of_prepare_threeTurns :
    (∀ (bound : Nat) (source : Tape), 0 < bound → (RandomSource.nextBounded bound source).1 < bound) ∧
      (∀ call ∈ threeTurns, call.IsAsked) ∧
      ((ofSource ({ words := #[1] } : Tape) 0 1 false .default).after
        (.prepare :: threeTurns)).KeepsToDelayPoints (.prepare :: threeTurns) threeTurns ∧
      ((ofSource ({ words := #[1] } : Tape) 0 1 false .default).after
        (.prepare :: threeTurns)).preemptionSteps threeTurns = [0] := by
  have hdraws (bound : Nat) (source : Tape) (hbound : 0 < bound) :
      (RandomSource.nextBounded bound source).1 < bound :=
    LawfulRandomSource.nextBounded_lt bound source hbound
  have hasked : ∀ call ∈ threeTurns, call.IsAsked := by
    intro call hmem
    obtain rfl := List.eq_of_mem_replicate hmem
    exact List.mem_cons_self
  exact ⟨hdraws, hasked,
    keepsToDelayPoints_of_prepare hdraws { words := #[1] } 0 1 false .default threeTurns hasked,
    by decide +kernel⟩

end DelayBounding

end ScheduleExplorer
