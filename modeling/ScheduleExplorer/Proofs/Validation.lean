import ScheduleExplorer.Proofs.Selections
import ScheduleExplorer.Random.ChaCha

/-!
# What validation sees of a selection

Two rules are about the components of a selection: a sticky walk needs a coin, and a random
partial-order search needs a reversal before it starts afresh. The strategy is built from all
components, at whatever depth they are, and each takes its settings from the selection or from the
configuration. Validation looks at the selection as a whole. So it applies the rules to a selection
that is a component itself, and to none of the components of a combination.
-/

namespace ScheduleExplorer

namespace Selection

/-- The components of a selection, in the order of their strategies. -/
def components : Selection → List Selection
  | combo lead rest => lead.components ++ rest.components
  | s => [s]

/-- A selection that is no combination is its only component. -/
theorem components_eq {s : Selection} (h : s.isCombo = false) : s.components = [s] := by
  cases s with
  | combo => cases h
  | _ => rfl

end Selection

namespace Strategy

variable {γ : Type}

/-- The parts of a strategy that stand on their own. -/
def parts : Strategy γ → List (Strategy γ)
  | combo lead rest => lead.parts ++ rest.parts
  | liveness inner => inner.parts
  | s => [s]

/-- Whether a strategy has a coin or a reversal, if it works with them. -/
def IsEquipped : Strategy γ → Prop
  | sticky s => 0 < s.coinFlips
  | dpor s => ∀ mode ∈ s.random, 0 < mode.limit
  | _ => True

end Strategy

namespace Config

/-- The budget and the step bounds fit together. -/
structure HasConsistentBounds (config : Config) : Prop where
  iterations : 1 ≤ config.iterations
  steps : config.maxFairSteps = 0 ∨
    (config.maxUnfairSteps ≤ config.maxFairSteps ∧ 0 < config.maxUnfairSteps)

/-- The rules hold of the budget, of the step bounds and of every component of the selection. -/
structure IsConsistent (config : Config) : Prop extends config.HasConsistentBounds where
  flips : .sticky 0 ∉ config.selection.components
  reversals : 0 < config.raceReversalLimit ∨ .randomDpor ∉ config.selection.components

/-- The rules for a component. -/
def Permits (config : Config) (component : Selection) : Prop :=
  component ≠ .sticky 0 ∧ (component = .randomDpor → 0 < config.raceReversalLimit)

/-- The rules for all components hold if each component is permitted. -/
theorem isConsistent_iff (config : Config) :
    config.IsConsistent ↔ config.HasConsistentBounds ∧
      ∀ component ∈ config.selection.components, config.Permits component := by
  constructor
  · intro h
    refine ⟨h.toHasConsistentBounds, fun component hmem => ⟨?_, ?_⟩⟩
    · rintro rfl
      exact h.flips hmem
    · rintro rfl
      exact h.reversals.resolve_right fun hnone => hnone hmem
  · rintro ⟨hbounds, hpermits⟩
    refine ⟨hbounds, fun hmem => (hpermits _ hmem).1 rfl, ?_⟩
    by_cases hmem : .randomDpor ∈ config.selection.components
    · exact .inl ((hpermits _ hmem).2 rfl)
    · exact .inr hmem

/-- Validation applies the rules for components to the selection itself. -/
theorem validate_eq_ok_iff (config : Config) :
    config.validate = .ok () ↔ config.HasConsistentBounds ∧ config.Permits config.selection := by
  unfold validate
  split_ifs with hiterations hsteps hflips hreversals
  · exact iff_of_false (by simp) fun ⟨hbounds, _⟩ => absurd hbounds.iterations (by omega)
  · simp only [Bool.and_eq_true, Bool.or_eq_true, decide_eq_true_eq, beq_iff_eq] at hsteps
    exact iff_of_false (by simp) fun ⟨hbounds, _⟩ => absurd hbounds.steps (by omega)
  · exact iff_of_false (by simp) fun ⟨_, hpermits⟩ => hpermits.1 hflips
  · simp only [Bool.and_eq_true, decide_eq_true_eq, beq_iff_eq] at hreversals
    exact iff_of_false (by simp) fun ⟨_, hpermits⟩ => absurd (hpermits.2 hreversals.1) (by omega)
  · simp only [Bool.and_eq_true, Bool.or_eq_true, decide_eq_true_eq, beq_iff_eq]
      at hsteps hreversals
    exact iff_of_true rfl ⟨⟨by omega, by omega⟩, hflips,
      fun heq => Nat.pos_of_ne_zero fun hnone => hreversals ⟨heq, hnone⟩⟩

/-- A combination is permitted whatever its components are. -/
theorem permits_of_isCombo (config : Config) {s : Selection} (h : s.isCombo = true) :
    config.Permits s := by
  constructor <;> rintro rfl <;> cases h

variable {γ : Type} [RandomSource γ]

/-- The parts of a strategy are equipped if the components that they are built from are
permitted. -/
theorem forall_parts_build (config : Config) (source : UInt64 → γ) (s : Selection)
    (seed : UInt64) :
    (∀ part ∈ (config.build source s seed).parts, part.IsEquipped) ↔
      ∀ component ∈ s.components, config.Permits component := by
  induction s generalizing seed with
  | combo lead rest ihLead ihRest =>
    simp only [build, Strategy.parts, Selection.components, List.forall_mem_append, ihLead, ihRest]
  | sticky flips =>
    simp [build, Strategy.parts, Strategy.IsEquipped, Selection.components, Permits,
      Nat.pos_iff_ne_zero]
  | randomDpor =>
    simp [build, Strategy.parts, Strategy.IsEquipped, Selection.components, Permits,
      Dpor.ofSource]
  | _ => simp [build, Strategy.parts, Strategy.IsEquipped, Selection.components, Permits]

/-- Within consistent bounds validation admits every combination, and of the other selections those
that the rules permit. What it leaves out is whether all parts of the strategy are equipped: it
admits an inconsistent configuration just if the selection is a combination with a component that is
not permitted. -/
theorem validate_admits_combo (config : Config) (source : UInt64 → γ) :
    (config.validate = .ok () ↔ config.HasConsistentBounds ∧
      (config.selection.isCombo = true ∨ config.Permits config.selection)) ∧
    (config.IsConsistent ↔ config.validate = .ok () ∧
      ∀ part ∈ (config.strategy source).parts, part.IsEquipped) ∧
    (config.validate = .ok () ∧ ¬ config.IsConsistent ↔ config.HasConsistentBounds ∧
      config.selection.isCombo = true ∧
        ∃ component ∈ config.selection.components, ¬ config.Permits component) := by
  have hcombo : config.selection.isCombo = true ∨ config.Permits config.selection ↔
      config.Permits config.selection := or_iff_right_of_imp config.permits_of_isCombo
  -- The selection is permitted if its components are: it is one of them, or a combination.
  have hwhole (hall : ∀ component ∈ config.selection.components, config.Permits component) :
      config.Permits config.selection := by
    cases hkind : config.selection.isCombo with
    | true => exact config.permits_of_isCombo hkind
    | false => exact hall _ (by simp [Selection.components_eq hkind])
  have hsplit : config.IsConsistent ↔ config.validate = .ok () ∧
      ∀ component ∈ config.selection.components, config.Permits component := by
    rw [isConsistent_iff, validate_eq_ok_iff, and_assoc, and_congr_right_iff]
    exact fun _ => ⟨fun hall => ⟨hwhole hall, hall⟩, And.right⟩
  refine ⟨by rw [validate_eq_ok_iff, hcombo], ?_, ?_⟩
  · rw [hsplit, strategy, forall_parts_build]
  · rw [hsplit, validate_eq_ok_iff]
    constructor
    · rintro ⟨⟨hbounds, hpermits⟩, hinconsistent⟩
      have hnot : ¬ ∀ component ∈ config.selection.components, config.Permits component :=
        fun hall => hinconsistent ⟨⟨hbounds, hpermits⟩, hall⟩
      refine ⟨hbounds, ?_, by simpa using hnot⟩
      by_contra hkind
      rw [Bool.not_eq_true] at hkind
      exact hnot (by simpa [Selection.components_eq hkind] using hpermits)
    · rintro ⟨hbounds, hkind, component, hmem, hnot⟩
      exact ⟨⟨hbounds, config.permits_of_isCombo hkind⟩, fun h => hnot (h.2 component hmem)⟩

/-- A configuration that selects a sticky walk without coins as the lead of a combination. -/
def coinless : Config :=
  { selection := .combo (.sticky 0) .random }

/-- Validation admits the sticky walk without coins in a combination, and not on its own. -/
theorem validate_eq_ok_coinless :
    Selection.parse "combo:prob:0+random" = .ok coinless.selection ∧
      coinless.validate = .ok () ∧ ¬ coinless.IsConsistent ∧
      { coinless with selection := .sticky 0 }.validate =
        .error (.invalidConfig "prob needs at least one coin flip") := by
  have htext : coinless.selection.text = "combo:prob:0+random" := by decide
  have hword : 0 < Nat.pow 2 64 := by decide
  have hparse : Selection.parse "combo:prob:0+random" = .ok coinless.selection :=
    htext ▸ Selection.parse_text ⟨hword, trivial⟩ ⟨rfl, trivial⟩
  refine ⟨hparse, rfl, fun h => h.flips ?_, rfl⟩
  exact List.mem_cons_self

end Config

end ScheduleExplorer
