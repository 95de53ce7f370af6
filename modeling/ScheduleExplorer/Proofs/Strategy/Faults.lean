import ScheduleExplorer.Proofs.Monitors
import ScheduleExplorer.Proofs.Strategy.Contract

/-!
# Faults and violations in an answer

Only a replay records faults, and a decorator finds violations. Neither happens in a query that is
answered: a strategy that has no fault pending has none after an answer, and an answer leaves a
registry without a violation without one. A query records at most one fault, so once that is taken
none is pending.
-/

namespace ScheduleExplorer

namespace Strategy

variable {γ : Type}

/-- No fault is pending in any part of a strategy. -/
def IsFaultless (s : Strategy γ) : Prop :=
  s.takeFault.1 = none

/-- A combination has no fault pending if neither part has. -/
theorem isFaultless_combo {lead rest : Strategy γ} :
    (combo lead rest).IsFaultless ↔ lead.IsFaultless ∧ rest.IsFaultless := by
  rw [IsFaultless, IsFaultless, IsFaultless, takeFault]
  split
  · next hfault => simp [hfault]
  · next hfault => simp [hfault]

/-- Taking a fault changes nothing where none is pending. -/
theorem IsFaultless.takeFault_eq {s : Strategy γ} (h : s.IsFaultless) : s.takeFault = (none, s) := by
  induction s with
  | replay s =>
    have hfault : s.fault = none := h
    rw [takeFault, Replay.takeFault, hfault]
    simp only [← hfault]
  | combo lead rest ihLead ihRest =>
    obtain ⟨hlead, hrest⟩ := isFaultless_combo.mp h
    rw [takeFault, ihLead hlead, ihRest hrest]
  | liveness inner ih =>
    have hinner : inner.IsFaultless := h
    rw [takeFault, ih hinner]
  | _ => rfl

/-- Telling a strategy of a bug makes no fault and takes none. -/
theorem isFaultless_notifyBug {s : Strategy γ} : s.notifyBug.IsFaultless ↔ s.IsFaultless := by
  induction s with
  | combo lead rest ihLead ihRest => rw [notifyBug, isFaultless_combo, isFaultless_combo, ihLead, ihRest]
  | liveness inner ih => exact ih
  | _ => exact Iff.rfl

variable [RandomSource γ]

/-- A query that is answered records no fault, and once a fault that it records is taken, none is
pending. -/
theorem isFaultless_answer {s : Strategy γ} (h : s.IsFaultless) (current : Operation) (query : Query)
    (monitors : Monitors) :
    ((answer current query s monitors).1.isSome = true →
      (answer current query s monitors).2.1.IsFaultless) ∧
    (answer current query s monitors).2.1.takeFault.2.IsFaultless := by
  induction s generalizing monitors with
  | replay s =>
    have hfault : s.fault = none := h
    rw [answer]
    rcases s.answer_cases query with ⟨value, -, heq⟩ | ⟨after, heq, -⟩
    · rw [heq]
      exact ⟨fun _ => hfault, rfl⟩
    · rw [heq]
      exact ⟨fun hsome => (by cases hsome), rfl⟩
  | combo lead rest ihLead ihRest =>
    obtain ⟨hlead, hrest⟩ := isFaultless_combo.mp h
    rw [answer]
    split
    · obtain ⟨hsome, htaken⟩ := ihRest hrest monitors
      refine ⟨fun hanswered => isFaultless_combo.mpr ⟨hlead, hsome hanswered⟩, ?_⟩
      rw [takeFault, hlead.takeFault_eq]
      exact isFaultless_combo.mpr ⟨hlead, htaken⟩
    · obtain ⟨hsome, htaken⟩ := ihLead hlead monitors
      refine ⟨fun hanswered => isFaultless_combo.mpr ⟨hsome hanswered, hrest⟩, ?_⟩
      rw [takeFault]
      split
      · next hfault =>
        rw [hfault] at htaken
        exact isFaultless_combo.mpr ⟨htaken, hrest⟩
      · next hfault =>
        rw [hfault] at htaken
        rw [hrest.takeFault_eq]
        exact isFaultless_combo.mpr ⟨htaken, hrest⟩
  | liveness inner ih =>
    rw [answer]
    dsimp only
    split
    · refine ⟨fun hsome => (by cases hsome), ?_⟩
      rw [h.takeFault_eq]
      exact h
    · exact ih h (checkMonitors inner monitors)
  | _ => exact ⟨fun _ => rfl, rfl⟩

/-- A query that finds a violation is not answered and leaves the strategy alone; the violation is a
temperature that is too high. -/
theorem answer_of_violation {s : Strategy γ} {current : Operation} {query : Query}
    {monitors : Monitors} (hclean : monitors.violation = none) {violation : LivenessViolation}
    (h : (answer current query s monitors).2.2.violation = some violation) :
    (answer current query s monitors).1 = none ∧ (answer current query s monitors).2.1 = s ∧
      violation.isAtBound = false := by
  induction s generalizing monitors with
  | combo lead rest ihLead ihRest =>
    rw [answer] at h ⊢
    split at h
    · next hdone =>
      rw [if_pos hdone]
      obtain ⟨hnone, hsame, hkind⟩ := ihRest hclean h
      exact ⟨hnone, congrArg (combo lead) hsame, hkind⟩
    · next hopen =>
      rw [if_neg hopen]
      obtain ⟨hnone, hsame, hkind⟩ := ihLead hclean h
      exact ⟨hnone, congrArg (combo · rest) hsame, hkind⟩
  | liveness inner ih =>
    rw [answer] at h ⊢
    dsimp only at h ⊢
    have hchecked : checkMonitors inner monitors =
        if inner.isFair then monitors.checkTemperature else monitors := by
      rw [checkMonitors, hclean, Option.isNone_none, Bool.and_true]
    split at h
    · next hhalted =>
      rw [if_pos hhalted]
      refine ⟨rfl, rfl, ?_⟩
      rw [hchecked] at h
      split at h
      · exact Monitors.isAtBound_checkTemperature hclean h
      · cases hclean.symm.trans h
    · next hgoesOn =>
      rw [if_neg hgoesOn]
      -- A fair strategy goes on only if the check has found nothing; an unfair one makes no check.
      have hstill : (checkMonitors inner monitors).violation = none := by
        rw [isHalted, Bool.and_eq_true, not_and, Bool.not_eq_true, Option.isSome_eq_false_iff,
          Option.isNone_iff_eq_none] at hgoesOn
        by_cases hfair : inner.isFair = true
        · exact hgoesOn hfair
        · rw [hchecked, if_neg hfair]
          exact hclean
      obtain ⟨hnone, hsame, hkind⟩ := ih hstill h
      exact ⟨hnone, congrArg liveness hsame, hkind⟩
  | _ => cases hclean.symm.trans h

/-- No query takes a violation back. -/
theorem violation_of_answer {s : Strategy γ} {current : Operation} {query : Query}
    {monitors : Monitors} (h : (answer current query s monitors).2.2.violation = none) :
    monitors.violation = none := by
  induction s generalizing monitors with
  | combo lead rest ihLead ihRest =>
    rw [answer] at h
    split at h
    · exact ihRest h
    · exact ihLead h
  | liveness inner ih =>
    have hchecked : (checkMonitors inner monitors).violation = none := by
      rw [answer] at h
      dsimp only at h
      split at h
      · exact h
      · exact ih h
    by_contra hfound
    rw [checkMonitors, Option.isNone_eq_false_iff.mpr (Option.isSome_iff_ne_none.mpr hfound),
      Bool.and_false, if_neg Bool.false_ne_true] at hchecked
    exact hfound hchecked
  | _ => exact h

/-- A query that is answered finds no violation. -/
theorem violation_of_answered {s : Strategy γ} {current : Operation} {query : Query}
    {monitors : Monitors} (hclean : monitors.violation = none)
    (h : (answer current query s monitors).1.isSome = true) :
    (answer current query s monitors).2.2.violation = none := by
  by_contra hfound
  obtain ⟨violation, hviolation⟩ := Option.ne_none_iff_exists'.mp hfound
  obtain ⟨hnone, -⟩ := answer_of_violation hclean hviolation
  rw [hnone] at h
  cases h

end Strategy

end ScheduleExplorer
