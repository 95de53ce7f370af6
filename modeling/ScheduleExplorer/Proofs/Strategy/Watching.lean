import ScheduleExplorer.Proofs.Monitors
import ScheduleExplorer.Proofs.Strategy.Contract

/-!
# Watching the monitors

A strategy of a campaign watches the monitors at the outside or not at all. As long as no violation
is recorded, watching checks the temperatures once for every query of a fair strategy, and a
violation found there keeps the query from the strategy inside. Nothing else depends on the monitors.
-/

namespace ScheduleExplorer

namespace Monitors

/-- What a query of a strategy does to the monitors. -/
def checkedFor (isWatched isFair : Bool) (monitors : Monitors) : Monitors :=
  if isWatched && isFair then monitors.checkTemperature else monitors

/-- A query changes nothing at rest. -/
theorem sameAtRest_checkedFor (isWatched isFair : Bool) (monitors : Monitors) :
    (monitors.checkedFor isWatched isFair).SameAtRest monitors := by
  rw [checkedFor]
  split
  · exact sameAtRest_checkTemperature monitors
  · exact .refl monitors

/-- A query takes no violation back. -/
theorem violation_of_checkedFor {isWatched isFair : Bool} {monitors : Monitors}
    (h : (monitors.checkedFor isWatched isFair).violation = none) : monitors.violation = none := by
  rw [checkedFor] at h
  split at h
  · by_contra hfound
    obtain ⟨violation, hviolation⟩ := Option.ne_none_iff_exists'.mp hfound
    simp only [checkTemperature, hviolation] at h
    cases h
  · exact h

end Monitors

namespace Strategy

variable {γ : Type}

/-- A strategy that watches the monitors, or one that does not. -/
def watch (isWatched : Bool) (inner : Strategy γ) : Strategy γ :=
  if isWatched then .liveness inner else inner

section Shape

variable (isWatched : Bool) (inner : Strategy γ)

/-- Watching the monitors does not change the fairness. -/
@[simp] theorem isFair_watch : (watch isWatched inner).isFair = inner.isFair := by
  cases isWatched <;> rfl

/-- Watching the monitors does not change the step bound. -/
@[simp] theorem atBound_watch : (watch isWatched inner).atBound = inner.atBound := by
  cases isWatched <;> rfl

/-- Watching the monitors takes no step. -/
@[simp] theorem steps_watch : (watch isWatched inner).steps = inner.steps := by
  cases isWatched <;> rfl

/-- Watching the monitors does not change the greatest number of steps. -/
@[simp] theorem maxSteps_watch : (watch isWatched inner).maxSteps = inner.maxSteps := by
  cases isWatched <;> rfl

/-- Watching the monitors makes no combination. -/
@[simp] theorem isCombined_watch : (watch isWatched inner).isCombined = inner.isCombined := by
  cases isWatched <;> rfl

/-- Watching the monitors keeps a strategy well formed. -/
@[simp] theorem wellFormed_watch : (watch isWatched inner).WellFormed ↔ inner.WellFormed := by
  cases isWatched <;> rfl

/-- Watching the monitors passes the fault of the strategy on. -/
@[simp] theorem takeFault_watch :
    (watch isWatched inner).takeFault = (inner.takeFault.1, watch isWatched inner.takeFault.2) := by
  cases isWatched <;> rfl

end Shape

/-- The shape of the strategies of a campaign: they watch the monitors at the outside or not at
all. -/
def IsOutermost (s : Strategy γ) : Prop :=
  s.isPlain = true ∨ s.isDecorated = true

/-- A strategy that watches nothing does not watch at the outside. -/
theorem isDecorated_of_isPlain {s : Strategy γ} (h : s.isPlain = true) : s.isDecorated = false := by
  cases s with
  | liveness => cases h
  | _ => rfl

/-- A strategy of a campaign is a strategy that watches nothing, watching at the outside or not. -/
theorem IsOutermost.exists_inner {s : Strategy γ} (h : s.IsOutermost) :
    ∃ inner : Strategy γ, s = watch s.isDecorated inner ∧ inner.isPlain = true := by
  rcases h with hplain | hdecorated
  · exact ⟨s, by rw [isDecorated_of_isPlain hplain]; rfl, hplain⟩
  · cases s with
    | liveness inner => exact ⟨inner, by rw [hdecorated]; rfl, hdecorated⟩
    | _ => cases hdecorated

/-- Watching at the outside makes a strategy of a campaign. -/
theorem isOutermost_watch (isWatched : Bool) {inner : Strategy γ} (h : inner.isPlain = true) :
    (watch isWatched inner).IsOutermost ∧ (watch isWatched inner).isDecorated = isWatched := by
  cases isWatched with
  | false => exact ⟨.inl h, isDecorated_of_isPlain h⟩
  | true => exact ⟨.inr h, h⟩

/-- A strategy of the same kind has the same shape. -/
theorem IsOutermost.of_sameKind {s other : Strategy γ} (h : other.IsOutermost)
    (hkind : s.SameKind other) : s.IsOutermost := by
  rw [IsOutermost, hkind.isPlain, hkind.isDecorated]
  exact h

variable [RandomSource γ]

/-- A query keeps the kind of a strategy, whatever state the strategy is in. -/
theorem sameKind_answer (s : Strategy γ) (current : Operation) (query : Query)
    (monitors : Monitors) : (answer current query s monitors).2.1.SameKind s := by
  induction s generalizing monitors with
  | replay s =>
    rw [answer]
    rcases s.answer_cases query with ⟨value, -, heq⟩ | ⟨after, heq, -, hfair, -⟩
    · rw [heq]
      exact ⟨rfl, rfl, rfl, rfl⟩
    · rw [heq]
      exact ⟨hfair, rfl, rfl, rfl⟩
  | combo lead rest ihLead ihRest =>
    rw [answer]
    split
    · exact .combo (.refl lead) (ihRest monitors)
    · exact (ihLead monitors).combo (.refl rest)
  | liveness inner ih =>
    rw [answer]
    dsimp only
    split
    · exact .refl _
    · exact (ih (checkMonitors inner monitors)).liveness
  | _ => exact ⟨rfl, rfl, rfl, rfl⟩

/-- A query changes no monitor at rest, whatever strategy answers it. -/
theorem sameAtRest_answer (s : Strategy γ) (current : Operation) (query : Query)
    (monitors : Monitors) : (answer current query s monitors).2.2.SameAtRest monitors := by
  induction s generalizing monitors with
  | combo lead rest ihLead ihRest =>
    rw [answer]
    split
    · exact ihRest monitors
    · exact ihLead monitors
  | liveness inner ih =>
    have hchecked : (checkMonitors inner monitors).SameAtRest monitors := by
      rw [checkMonitors]
      split
      · exact Monitors.sameAtRest_checkTemperature monitors
      · exact .refl monitors
    rw [answer]
    dsimp only
    split
    · exact hchecked
    · exact (ih _).trans hchecked
  | _ => exact .refl monitors

/-- A strategy that watches nothing leaves the monitors alone. -/
theorem monitors_answer {s : Strategy γ} (h : s.isPlain = true) (current : Operation)
    (query : Query) (monitors : Monitors) : (answer current query s monitors).2.2 = monitors := by
  induction s generalizing monitors with
  | combo lead rest ihLead ihRest =>
    rw [isPlain, Bool.and_eq_true] at h
    rw [answer]
    split
    · exact ihRest h.2 monitors
    · exact ihLead h.1 monitors
  | liveness => cases h
  | _ => rfl

/-- A query of a strategy of a campaign: the monitors are checked, and unless that finds a violation
the strategy inside answers. -/
theorem answer_watch {inner : Strategy γ} (hplain : inner.isPlain = true) (isWatched : Bool)
    (current : Operation) (query : Query) {monitors : Monitors}
    (hclean : monitors.violation = none) :
    answer current query (watch isWatched inner) monitors =
      if (monitors.checkedFor isWatched inner.isFair).violation.isSome then
        (none, watch isWatched inner, monitors.checkedFor isWatched inner.isFair)
      else
        ((answer current query inner (monitors.checkedFor isWatched inner.isFair)).1,
          watch isWatched (answer current query inner (monitors.checkedFor isWatched inner.isFair)).2.1,
          monitors.checkedFor isWatched inner.isFair) := by
  cases isWatched with
  | false =>
    simp only [Monitors.checkedFor, Bool.false_and, Bool.false_eq_true, if_false, hclean,
      Option.isSome_none, watch]
    exact Prod.ext rfl (Prod.ext rfl (monitors_answer hplain current query monitors))
  | true =>
    have hchecked : checkMonitors inner monitors = monitors.checkedFor true inner.isFair := by
      rw [checkMonitors, Monitors.checkedFor, hclean, Option.isNone_none, Bool.and_true,
        Bool.true_and]
    have hhalted : isHalted inner (monitors.checkedFor true inner.isFair) =
        (monitors.checkedFor true inner.isFair).violation.isSome := by
      rw [isHalted, Monitors.checkedFor]
      cases hfair : inner.isFair with
      | false => simp [hclean]
      | true => rw [Bool.true_and]
    simp only [watch, if_true, answer, hchecked, hhalted]
    split
    · rfl
    · rw [monitors_answer hplain]

/-- A query of a strategy of a campaign checks the monitors and does nothing else to them, and it
leaves the strategy alone if that finds a violation. -/
theorem IsOutermost.answer_spec {s : Strategy γ} (h : s.IsOutermost) (current : Operation)
    (query : Query) {monitors : Monitors} (hclean : monitors.violation = none) :
    (answer current query s monitors).2.2 = monitors.checkedFor s.isDecorated s.isFair ∧
      ((monitors.checkedFor s.isDecorated s.isFair).violation.isSome = true →
        answer current query s monitors =
          (none, s, monitors.checkedFor s.isDecorated s.isFair)) := by
  obtain ⟨inner, hwatch, hplain⟩ := h.exists_inner
  have hanswer := answer_watch hplain s.isDecorated current query hclean
  have hfair := isFair_watch s.isDecorated inner
  rw [← hwatch] at hanswer hfair
  rw [hanswer, hfair]
  refine ⟨?_, fun hviolation => if_pos hviolation⟩
  split <;> rfl

end Strategy

end ScheduleExplorer
