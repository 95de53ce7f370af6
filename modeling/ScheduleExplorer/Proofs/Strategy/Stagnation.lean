import ScheduleExplorer.Proofs.Strategy.Delays
import Mathlib.Data.Finset.Card
import Std.Data.TreeMap.Lemmas

/-!
# Stagnation

The iterative form of delay bounding allows another delay when its iterations stop visiting new
states. It counts the iterations without a new state and takes up the count again after an iteration
with one: what matters is every hundredth stagnant iteration of all, and not the hundredth in
succession.

A hundred stagnant iterations in succession, counted from the last growth, are enough. They are not
necessary: stagnant iterations before a new state are counted too.
-/

namespace ScheduleExplorer

namespace VisitCounts

/-- A visit adds its state to the visited ones. -/
theorem mem_visits_record {state other : UInt64} {counts : VisitCounts} :
    other ∈ (counts.record state).visits ↔ other = state ∨ other ∈ counts.visits := by
  rw [record, Std.TreeMap.mem_insert, Std.LawfulEqCmp.compare_eq_iff_eq, eq_comm]

/-- A visit adds a state unless it has been visited before. -/
theorem uniqueStates_record (state : UInt64) (counts : VisitCounts) :
    (counts.record state).uniqueStates =
      if state ∈ counts.visits then counts.uniqueStates else counts.uniqueStates + 1 := by
  rw [uniqueStates, record, Std.TreeMap.size_insert]
  rfl

end VisitCounts

namespace DelayBounding

variable {γ : Type} [RandomSource γ]

namespace Call

/-! ### Stagnant histories -/

/-- The state that a call visits. -/
def visited? (level : AbstractionLevel) : Call → Option UInt64
  | answer current _ => some (current.hashes.atLevel level)
  | prepare | reset => none

/-- The states that a history has visited. -/
def visited (level : AbstractionLevel) (past : List Call) : Finset UInt64 :=
  (past.filterMap (visited? level)).toFinset

/-- The number of states that had been visited when the strategy moved on for the last time. -/
def visitedBefore (level : AbstractionLevel) : List Call → Nat
  | [] => 0
  | prepare :: past => (visited level past).card
  | _ :: past => visitedBefore level past

/-- Whether no new state has been visited since the strategy moved on for the last time. -/
def IsStagnant (level : AbstractionLevel) (past : List Call) : Prop :=
  (visited level past).card = visitedBefore level past

instance (level : AbstractionLevel) (past : List Call) : Decidable (IsStagnant level past) :=
  inferInstanceAs (Decidable (_ = _))

/-- How many times in all the strategy has moved on without a new state. -/
def stagnations (level : AbstractionLevel) : List Call → Nat
  | [] => 0
  | prepare :: past => stagnations level past + if IsStagnant level past then 1 else 0
  | _ :: past => stagnations level past

/-- A history has no more stagnant iterations than calls. -/
theorem stagnations_le_length (level : AbstractionLevel) (past : List Call) :
    stagnations level past ≤ past.length := by
  induction past with
  | nil => exact Nat.le_refl 0
  | cons call past ih =>
    cases call with
    | answer => exact Nat.le_succ_of_le ih
    | reset => exact Nat.le_succ_of_le ih
    | prepare =>
      rw [stagnations, List.length_cons]
      split <;> omega

/-- An answer visits the state of the running operation. -/
@[simp] theorem visited_answer (level : AbstractionLevel) (current : Operation) (query : Query)
    (past : List Call) :
    visited level (answer current query :: past) =
      insert (current.hashes.atLevel level) (visited level past) := by
  simp [visited, visited?]

/-- Moving on visits no state. -/
@[simp] theorem visited_prepare (level : AbstractionLevel) (past : List Call) :
    visited level (prepare :: past) = visited level past := rfl

end Call

open Call

/-! ### The tallies -/

/-- An iterative strategy that has kept the tallies of a history. -/
structure Tallies (level : AbstractionLevel) (initial : Nat) (past : List Call)
    (s : DelayBounding γ) : Prop where
  isIterative : s.isIterative = true
  level_eq : s.level = level
  mem_visits : ∀ state, state ∈ s.visits.visits ↔ state ∈ visited level past
  uniqueStates : s.visits.uniqueStates = (visited level past).card
  previousUnique : s.previousUnique = visitedBefore level past
  stagnant : s.stagnant = stagnations level past % samplingThreshold
  maxDelays : s.maxDelays = initial + stagnations level past / samplingThreshold

section

omit [RandomSource γ]

variable {level : AbstractionLevel} {initial : Nat} {past : List Call} {s : DelayBounding γ}

/-- A visited state enters the tallies of states alone. -/
theorem Tallies.visit (h : s.Tallies level initial past) (current : Operation) (query : Query) :
    (s.visit current).Tallies level initial (.answer current query :: past) where
  __ := h
  mem_visits state := by
    rw [DelayBounding.visit, VisitCounts.mem_visits_record, h.mem_visits, h.level_eq,
      visited_answer, Finset.mem_insert]
  uniqueStates := by
    rw [DelayBounding.visit, VisitCounts.uniqueStates_record, h.uniqueStates, h.level_eq,
      visited_answer, Finset.card_insert_eq_ite]
    simp only [h.mem_visits]

/-- A stagnant iteration is counted, and every hundredth of them allows another delay. -/
theorem Tallies.adjustDelays (h : s.Tallies level initial past) :
    s.adjustDelays.Tallies level initial (.prepare :: past) := by
  have hstagnant := h.stagnant
  have hunique : s.visits.uniqueStates = s.previousUnique ↔ IsStagnant level past := by
    rw [h.uniqueStates, h.previousUnique, IsStagnant]
  rw [DelayBounding.adjustDelays, if_pos h.isIterative]
  dsimp only
  by_cases hcalm : IsStagnant level past
  · have hcount : stagnations level (.prepare :: past) = stagnations level past + 1 := by
      rw [stagnations, if_pos hcalm]
    rw [if_pos (hunique.mpr hcalm)]
    split
    · next hfull =>
      have hnext : (stagnations level past + 1) % samplingThreshold = 0 ∧
          (stagnations level past + 1) / samplingThreshold =
            stagnations level past / samplingThreshold + 1 := by
        rw [samplingThreshold] at *
        omega
      exact { h with
        previousUnique := h.uniqueStates
        stagnant := by rw [hcount, hnext.1]
        maxDelays := by rw [hcount, hnext.2, h.maxDelays, Nat.add_assoc] }
    · next hmore =>
      have hnext : (stagnations level past + 1) % samplingThreshold =
            stagnations level past % samplingThreshold + 1 ∧
          (stagnations level past + 1) / samplingThreshold =
            stagnations level past / samplingThreshold := by
        rw [samplingThreshold] at *
        omega
      exact { h with
        previousUnique := h.uniqueStates
        stagnant := by rw [hcount, hnext.1, hstagnant]
        maxDelays := by rw [hcount, hnext.2, h.maxDelays] }
  · have hcount : stagnations level (.prepare :: past) = stagnations level past := by
      rw [stagnations, if_neg hcalm, Nat.add_zero]
    rw [if_neg (mt hunique.mp hcalm)]
    exact { h with
      previousUnique := h.uniqueStates
      stagnant := hcount ▸ h.stagnant
      maxDelays := hcount ▸ h.maxDelays }

end

/-- Every call keeps the tallies. -/
theorem Tallies.perform {level : AbstractionLevel} {initial : Nat} {past : List Call}
    {s : DelayBounding γ} (h : s.Tallies level initial past) (call : Call) :
    (s.perform call).Tallies level initial (call :: past) := by
  cases call with
  | answer current query =>
    obtain ⟨walk, heq, -⟩ := answer_eq current query s
    rw [DelayBounding.perform, heq]
    exact { h.visit current query with }
  | prepare => exact { h.adjustDelays with }
  | reset => exact { h with }

/-- An iterative strategy keeps the tallies of its history. -/
theorem tallies_after (source : γ) (maxSteps initial : Nat) (level : AbstractionLevel)
    (past : List Call) :
    ((ofSource source maxSteps initial true level).after past).Tallies level initial past := by
  induction past with
  | nil =>
    refine ⟨rfl, rfl, fun state => by simp [after, ofSource, visited], rfl, rfl, rfl, ?_⟩
    rw [stagnations, Nat.zero_div]
    rfl
  | cons call past ih => exact ih.perform call

/-! ### Growth -/

/-- Whether another delay is allowed when the strategy moves on after a history. -/
def Raises (s : DelayBounding γ) (past : List Call) : Prop :=
  (s.after (.prepare :: past)).maxDelays = (s.after past).maxDelays + 1

instance (s : DelayBounding γ) (past : List Call) : Decidable (s.Raises past) :=
  inferInstanceAs (Decidable (_ = _))

/-- The stagnant iterations in succession with which a history ends, since the last growth. -/
def streak (s : DelayBounding γ) : List Call → Nat
  | [] => 0
  | .prepare :: past => if IsStagnant s.level past ∧ ¬ s.Raises past then s.streak past + 1 else 0
  | _ :: past => s.streak past

/-- How the number of delays of an iterative strategy grows with the stagnant iterations of its
history. -/
structure GrowsWithStagnation (s : DelayBounding γ) (past : List Call) : Prop where
  maxDelays_eq : (s.after past).maxDelays =
    s.maxDelays + stagnations s.level past / samplingThreshold
  /-- The number of delays is a word while the calls are too few to use the words up. -/
  maxDelays_lt : s.maxDelays + past.length / samplingThreshold < UInt64.size →
    (s.after past).maxDelays < UInt64.size
  /-- Another delay is allowed after every hundredth stagnant iteration of all. -/
  raises_iff : s.Raises past ↔
    IsStagnant s.level past ∧ samplingThreshold ∣ stagnations s.level past + 1
  /-- A hundred stagnant iterations in succession since the last growth are enough. -/
  raises_of_streak : IsStagnant s.level past → s.streak past + 1 = samplingThreshold → s.Raises past
  /-- Nothing else changes the number of delays. -/
  maxDelays_eq_of_not_raises : ∀ call, (call = .prepare → ¬ s.Raises past) →
    (s.after (call :: past)).maxDelays = (s.after past).maxDelays

/-- Moving on completes another hundred if the iteration was stagnant and the hundredth one. -/
theorem stagnations_prepare_div (level : AbstractionLevel) (past : List Call) :
    stagnations level (.prepare :: past) / samplingThreshold =
      stagnations level past / samplingThreshold +
        if IsStagnant level past ∧ samplingThreshold ∣ stagnations level past + 1 then 1 else 0 := by
  rw [stagnations]
  by_cases hcalm : IsStagnant level past
  · simp only [hcalm, if_true, true_and, Nat.succ_div]
  · simp only [hcalm, if_false, false_and, Nat.add_zero]

/-- The number of delays has grown by the hundreds of stagnant iterations. -/
theorem maxDelays_after (source : γ) (maxSteps initial : Nat) (level : AbstractionLevel)
    (past : List Call) :
    ((ofSource source maxSteps initial true level).after past).maxDelays =
      initial + stagnations level past / samplingThreshold :=
  (tallies_after source maxSteps initial level past).maxDelays

/-- Another delay is allowed after every hundredth stagnant iteration of all. -/
theorem raises_iff_dvd (source : γ) (maxSteps initial : Nat) (level : AbstractionLevel)
    (past : List Call) :
    (ofSource source maxSteps initial true level).Raises past ↔
      IsStagnant level past ∧ samplingThreshold ∣ stagnations level past + 1 := by
  rw [Raises, maxDelays_after, maxDelays_after, stagnations_prepare_div, ← Nat.add_assoc,
    Nat.add_left_cancel_iff]
  split <;> simp [*]

/-- The stagnant iterations in succession are among those that have been counted. -/
theorem streak_le (source : γ) (maxSteps initial : Nat) (level : AbstractionLevel)
    (past : List Call) :
    (ofSource source maxSteps initial true level).streak past ≤
      stagnations level past % samplingThreshold := by
  induction past with
  | nil => exact Nat.zero_le _
  | cons call past ih =>
    cases call with
    | answer => exact ih
    | reset => exact ih
    | prepare =>
      rw [streak]
      split
      · next h =>
        obtain ⟨hcalm, hsame⟩ := h
        -- The threshold is not reached, so the remainder goes up by one with the succession.
        have hmore : ¬ samplingThreshold ∣ stagnations level past + 1 := fun hfull =>
          hsame ((raises_iff_dvd source maxSteps initial level past).mpr ⟨hcalm, hfull⟩)
        have hcount : stagnations level (.prepare :: past) = stagnations level past + 1 :=
          congrArg (stagnations level past + ·) (if_pos hcalm)
        rw [hcount]
        rw [samplingThreshold] at *
        omega
      · exact Nat.zero_le _

/-- An iterative strategy allows another delay after every hundredth stagnant iteration of all. -/
theorem growsWithStagnation (source : γ) (maxSteps initial : Nat) (level : AbstractionLevel)
    (past : List Call) :
    (ofSource source maxSteps initial true level).GrowsWithStagnation past where
  maxDelays_eq := maxDelays_after source maxSteps initial level past
  maxDelays_lt hwords := by
    rw [maxDelays_after]
    exact (Nat.add_le_add_left (Nat.div_le_div_right (stagnations_le_length level past)) _).trans_lt
      hwords
  raises_iff := raises_iff_dvd source maxSteps initial level past
  raises_of_streak hcalm hstreak := by
    have hle := streak_le source maxSteps initial level past
    refine (raises_iff_dvd source maxSteps initial level past).mpr ⟨hcalm, ?_⟩
    rw [samplingThreshold] at *
    omega
  maxDelays_eq_of_not_raises call hcall := by
    rw [maxDelays_after, maxDelays_after]
    cases call with
    | answer => rfl
    | reset => rfl
    | prepare =>
      rw [stagnations_prepare_div,
        if_neg (mt (raises_iff_dvd source maxSteps initial level past).mpr (hcall rfl)), Nat.add_zero]

/-! ### An interrupted succession -/

/-- A call that visits the state with a given hash. -/
def sees (hash : UInt64) : Call :=
  .answer { Operation.new ⟨0⟩ "a" with hashes := { default := hash } } (.boolean 2)

/-- An iteration that sees a new state, and then as many that see it again. -/
def rounds : Nat → List Call
  | 0 => [.prepare, sees 0]
  | count + 1 => .prepare :: sees 0 :: rounds count

/-- The iterations of the rounds see one state, and all but the first are stagnant. -/
theorem rounds_spec (count : Nat) :
    visited .default (rounds count) = {0} ∧ visitedBefore .default (rounds count) = 1 ∧
      stagnations .default (rounds count) = count := by
  induction count with
  | zero => decide
  | succ count ih =>
    obtain ⟨hvisited, hbefore, hcount⟩ := ih
    have hstays : visited .default (sees 0 :: rounds count) = {0} := by
      rw [sees, visited_answer, hvisited]
      rfl
    have hcalm : IsStagnant .default (sees 0 :: rounds count) :=
      (congrArg Finset.card hstays).trans hbefore.symm
    refine ⟨hstays, congrArg Finset.card hstays, ?_⟩
    rw [rounds, stagnations, if_pos hcalm]
    exact congrArg (· + 1) hcount

/-- Some stagnant iterations, then one that sees a new state, and an iteration that sees none. -/
def interrupted (count : Nat) : List Call :=
  sees 0 :: .prepare :: sees 1 :: rounds count

/-- The interrupting iteration is not counted, and the count before it goes on after it. -/
theorem interrupted_spec (count : Nat) :
    ¬ IsStagnant .default (sees 1 :: rounds count) ∧ IsStagnant .default (interrupted count) ∧
      stagnations .default (interrupted count) = count := by
  obtain ⟨hvisited, hbefore, hcount⟩ := rounds_spec count
  have hnews : visited .default (sees 1 :: rounds count) = {1, 0} := by
    rw [sees, visited_answer, hvisited]
    rfl
  have hstays : visited .default (interrupted count) = {1, 0} := by
    rw [interrupted, sees, visited_answer, visited_prepare, hnews]
    decide
  have hnew : ¬ IsStagnant .default (sees 1 :: rounds count) := fun hcalm =>
    absurd ((congrArg Finset.card hnews).symm.trans (hcalm.trans hbefore)) (by decide)
  refine ⟨hnew, (congrArg Finset.card hstays).trans (congrArg Finset.card hnews).symm, ?_⟩
  change stagnations .default (rounds count) + (if _ then 1 else 0) = count
  rw [hcount, if_neg hnew, Nat.add_zero]

/-- The interrupting iteration ends the succession. -/
theorem streak_interrupted (source : γ) (maxSteps initial count : Nat) :
    (ofSource source maxSteps initial true .default).streak (interrupted count) = 0 :=
  if_neg fun h => (interrupted_spec count).1 h.1

/-- The hundredth stagnant iteration of all allows another delay although it is the first one in
succession. -/
theorem not_raises_iff_streak_interrupted :
    ¬ ((ofSource ({ words := #[0] } : Tape) 0 1 true .default).Raises (interrupted 99) ↔
      IsStagnant .default (interrupted 99) ∧
        (ofSource ({ words := #[0] } : Tape) 0 1 true .default).streak (interrupted 99) + 1 =
          samplingThreshold) := by
  obtain ⟨-, hcalm, hcount⟩ := interrupted_spec 99
  have hraises : (ofSource ({ words := #[0] } : Tape) 0 1 true .default).Raises (interrupted 99) :=
    (raises_iff_dvd ..).mpr ⟨hcalm, by rw [hcount]; decide⟩
  rw [streak_interrupted]
  exact fun hiff => absurd (hiff.mp hraises).2 (by decide)

end DelayBounding

end ScheduleExplorer
