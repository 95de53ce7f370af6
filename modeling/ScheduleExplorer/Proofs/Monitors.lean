import ScheduleExplorer.Monitor
import Mathlib.Data.List.Basic

/-!
# Violations and monitors at rest

A violation tells where it was found: by a check of the temperatures, or at the step bound. Its
wording tells this too, since only that of a check ends in a number.

Apart from violations a registry changes only in how hot its monitors are and in how often they were
checked. `Monitors.SameAtRest` says so: the next iteration begins with the same registry, up to the
count of checks.
-/

namespace ScheduleExplorer

namespace LivenessViolation

/-- Whether a violation was found at the step bound. -/
def isAtBound : LivenessViolation → Bool
  | temperatureExceeded .. => false
  | hotAtBound .. => true

/-- A text with a number at its end ends in a digit. -/
theorem isDigit_getLast_toString (before : List Char) (number : Nat) :
    (before ++ (toString number).toList).getLast?.any Char.isDigit = true := by
  have hrepr : (toString number).toList = Nat.toDigits 10 number := Nat.toList_repr
  have hdigits : Nat.toDigits 10 number ≠ [] := Nat.toDigits_ne_nil
  rw [hrepr, List.getLast?_append_of_ne_nil _ hdigits, List.getLast?_eq_some_getLast hdigits]
  exact Nat.isDigit_of_mem_toDigits (by omega) (Nat.le_refl 10) (List.getLast_mem hdigits)

/-- The wording of a violation ends in a digit unless it was found at the step bound. -/
theorem isDigit_getLast_message (violation : LivenessViolation) :
    violation.message.toList.getLast?.any Char.isDigit = !violation.isAtBound := by
  cases violation with
  | temperatureExceeded monitor name temperature threshold =>
    rw [message, isAtBound, String.toList_append]
    exact isDigit_getLast_toString _ _
  | hotAtBound monitor name =>
    rw [message, isAtBound, String.toList_append, List.getLast?_append_of_ne_nil _ (by decide)]
    decide

/-- Violations with the same wording were found in the same place. -/
theorem isAtBound_eq_of_message {violation other : LivenessViolation}
    (h : violation.message = other.message) : violation.isAtBound = other.isAtBound := by
  have hsame := other.isDigit_getLast_message
  rw [← h, isDigit_getLast_message] at hsame
  exact Bool.not_inj hsame

end LivenessViolation

namespace Monitors

/-- A check of the temperatures finds a temperature that is too high, or nothing. -/
theorem isAtBound_checkTemperature {monitors : Monitors} (h : monitors.violation = none)
    {violation : LivenessViolation}
    (hfound : monitors.checkTemperature.violation = some violation) :
    violation.isAtBound = false := by
  simp only [checkTemperature, h] at hfound
  obtain ⟨found, -, rfl⟩ := Option.map_eq_some_iff.mp hfound
  rfl

/-- A check at the step bound finds a hot monitor, or nothing. -/
theorem isAtBound_checkAtBound {monitors : Monitors} (h : monitors.violation = none)
    {violation : LivenessViolation} (hfound : monitors.checkAtBound.violation = some violation) :
    violation.isAtBound = true := by
  simp only [checkAtBound, h] at hfound
  obtain ⟨found, -, rfl⟩ := Option.map_eq_some_iff.mp hfound
  rfl

/-! ### Monitors at rest -/

/-- Two registries are the same once their monitors are cooled and a violation is forgotten, up to
the count of checks. -/
structure SameAtRest (monitors other : Monitors) : Prop where
  threshold : monitors.threshold = other.threshold
  cooled : monitors.monitors.map Monitor.cool = other.monitors.map Monitor.cool

/-- A registry is the same as itself. -/
theorem SameAtRest.refl (monitors : Monitors) : monitors.SameAtRest monitors :=
  ⟨rfl, rfl⟩

/-- Registries that are the same as one between them are the same. -/
theorem SameAtRest.trans {monitors between other : Monitors} (h : monitors.SameAtRest between)
    (h' : between.SameAtRest other) : monitors.SameAtRest other :=
  ⟨h.threshold.trans h'.threshold, h.cooled.trans h'.cooled⟩

/-- What an iteration begins with, up to the count of checks. -/
theorem SameAtRest.resetForIteration_eq {monitors other : Monitors}
    (h : monitors.SameAtRest other) : monitors.resetForIteration =
      { other.resetForIteration with checks := monitors.checks } := by
  rw [resetForIteration, resetForIteration, h.threshold, h.cooled]

/-- Making a monitor hot or cold changes nothing at rest. -/
theorem map_cool_set (id : MonitorId) (isHot : Bool) (monitors : Monitors) :
    (monitors.set id isHot).monitors.map Monitor.cool = monitors.monitors.map Monitor.cool := by
  apply List.ext_getElem?
  intro index
  simp only [set, List.getElem?_map, List.getElem?_modify]
  cases monitors.monitors[index]? with
  | none => rfl
  | some monitor =>
    simp only [Option.map_some]
    split
    · cases isHot <;> rfl
    · rfl

/-- Checking the temperatures changes nothing at rest. -/
theorem sameAtRest_checkTemperature (monitors : Monitors) :
    monitors.checkTemperature.SameAtRest monitors := by
  rw [checkTemperature]
  dsimp only
  split
  · exact ⟨rfl, rfl⟩
  · refine ⟨rfl, ?_⟩
    rw [List.map_map]
    apply List.map_congr_left
    intro monitor _
    rw [Function.comp_apply, Monitor.warm]
    split <;> rfl

/-- Checking at the bound changes nothing at rest. -/
theorem sameAtRest_checkAtBound (monitors : Monitors) :
    monitors.checkAtBound.SameAtRest monitors := by
  rw [checkAtBound]
  split <;> exact ⟨rfl, rfl⟩

/-- Resetting changes nothing at rest. -/
theorem sameAtRest_resetForIteration (monitors : Monitors) :
    monitors.resetForIteration.SameAtRest monitors := by
  refine ⟨rfl, ?_⟩
  rw [resetForIteration, List.map_map]
  rfl

end Monitors

end ScheduleExplorer
