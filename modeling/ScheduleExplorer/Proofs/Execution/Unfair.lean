import ScheduleExplorer.Proofs.Execution.Driven
import ScheduleExplorer.Proofs.Strategy.Watching

/-!
# Unfair strategies spare the monitors

A monitor that stays hot proves something only about a fair execution. So an iteration with an unfair
strategy leaves the monitors to the program: no query checks them, neither the decorator's check before
an answer nor the one after it nor the one at the step bound, and the iteration ends with a liveness
violation only if it is told so.

The decorator has to be at the outside. Inside of a combination it goes by the fairness of its part,
which need not be that of the whole.
-/

namespace ScheduleExplorer

/-! ### Monitors that are left to the program -/

/-- From one state of the monitors to a later one no check was made, nothing was found and no monitor
has become warmer. -/
structure Monitors.Spares (before after : Monitors) : Prop where
  checks : after.checks = before.checks
  unviolated : before.violation = none ∧ after.violation = none
  temperature : ∀ id monitor, after.get? id = some monitor →
    ∃ old, before.get? id = some old ∧ monitor.temperature ≤ old.temperature

namespace Monitors

/-- Monitors without a violation are spared as long as nothing happens. -/
theorem Spares.refl {monitors : Monitors} (h : monitors.violation = none) :
    monitors.Spares monitors :=
  ⟨rfl, ⟨h, h⟩, fun _ monitor hmonitor => ⟨monitor, hmonitor, Nat.le_refl _⟩⟩

/-- Monitors that are spared twice are spared. -/
theorem Spares.trans {before between after : Monitors} (h : before.Spares between)
    (h' : between.Spares after) : before.Spares after := by
  refine ⟨h'.checks.trans h.checks, ⟨h.unviolated.1, h'.unviolated.2⟩, ?_⟩
  intro id monitor hmonitor
  obtain ⟨old, hold, hle⟩ := h'.temperature id monitor hmonitor
  obtain ⟨older, holder, hle'⟩ := h.temperature id old hold
  exact ⟨older, holder, hle.trans hle'⟩

/-- The program may make monitors hot and cold, which makes none warmer. -/
theorem spares_set {monitors : Monitors} (h : monitors.violation = none) (id : MonitorId)
    (isHot : Bool) : monitors.Spares (monitors.set id isHot) := by
  refine ⟨rfl, ⟨h, h⟩, ?_⟩
  intro other monitor hmonitor
  simp only [get?, set, List.getElem?_modify, Option.map_eq_map, Option.map_eq_some_iff] at hmonitor
  obtain ⟨old, hold, rfl⟩ := hmonitor
  refine ⟨old, hold, ?_⟩
  split
  · cases isHot <;> simp [Monitor.heat, Monitor.cool]
  · exact Nat.le_refl _

end Monitors

variable {γ : Type}

/-! ### Iterations with an unfair strategy -/

/-- A call tells the iteration to end with a kind of bug. -/
def Call.Tells (kind : BugKind) : Call → Prop
  | .stop outcome => outcome = .bugFound kind
  | .reportBug reported _ => reported = kind
  | _ => False

namespace Iteration

/-- The strategy is unfair and watches the monitors at most at the outside, and no violation is
recorded. -/
structure Unwatched (it : Iteration γ) : Prop where
  shape : it.strategy.IsOutermost
  unfair : it.strategy.isFair = false
  unviolated : it.monitors.violation = none

variable {it : Iteration γ}

/-- The monitors stay unwatched with a strategy of the same kind. -/
theorem Unwatched.of_sameKind {after : Iteration γ} (h : it.Unwatched)
    (hkind : after.strategy.SameKind it.strategy) (hmonitors : after.monitors.violation = none) :
    after.Unwatched :=
  ⟨h.shape.of_sameKind hkind, hkind.isFair.trans h.unfair, hmonitors⟩

/-- At the step bound of an unfair strategy the monitors are not looked at. -/
theorem Unwatched.endAtBound (h : it.Unwatched) (hrunning : it.isRunning = true) :
    it.endAtBound.monitors = it.monitors ∧
      it.endAtBound.phase ≠ .stopped (.bugFound .liveness) := by
  have hsame : it.monitorsAtBound = it.monitors := by
    rw [monitorsAtBound, h.unfair]
    rfl
  refine ⟨(monitors_endAtBound it).trans hsame, ?_⟩
  rw [endAtBound_eq, h.unfair, hsame]
  simp only [closeAtBound, Bool.false_eq_true, if_false]
  split
  · rw [phase_reportBug hrunning]
    decide
  · rw [phase_stop hrunning]
    decide

variable [RandomSource γ]

/-- A consultation of an unfair strategy checks nothing and finds nothing. -/
theorem Unwatched.consulted (h : it.Unwatched) {query : Query}
    {result : Except Fault (Option (Option query.Answer)) × Iteration γ}
    (hresult : Consulted query it result) :
    result.2.strategy.SameKind it.strategy ∧ result.2.monitors = it.monitors ∧
      result.2.phase = it.phase := by
  have hafter {op : Operation} {answer : Option query.Answer} {strategy : Strategy γ}
      {monitors : Monitors}
      (hanswer : it.strategy.answer op query it.monitors = (answer, strategy, monitors)) :
      strategy.SameKind it.strategy ∧ monitors = it.monitors := by
    have hkind := it.strategy.sameKind_answer op query it.monitors
    obtain ⟨hmonitors, -⟩ := h.shape.answer_spec op query h.unviolated
    rw [h.unfair, Monitors.checkedFor, Bool.and_false, if_neg Bool.false_ne_true] at hmonitors
    rw [hanswer] at hkind hmonitors
    exact ⟨hkind, hmonitors⟩
  have htaken {strategy taken : Strategy γ} {fault : Option Fault}
      (hfault : strategy.takeFault = (fault, taken)) : taken.SameKind strategy := by
    have hkept := strategy.keeps_takeFault
    rw [hfault] at hkept
    exact hkept.sameKind
  cases hresult with
  | unknown => exact ⟨.refl _, rfl, rfl⟩
  | violated hop hanswer hviolation =>
    obtain ⟨-, rfl⟩ := hafter hanswer
    cases hviolation.symm.trans h.unviolated
  | failed hop hanswer hviolation hfault =>
    obtain ⟨hkind, hmonitors⟩ := hafter hanswer
    exact ⟨(htaken hfault).trans hkind, hmonitors, rfl⟩
  | answered hop hanswer hviolation hfault =>
    obtain ⟨hkind, hmonitors⟩ := hafter hanswer
    exact ⟨(htaken hfault).trans hkind, hmonitors, rfl⟩

/-- A query leaves the kind of the strategy and the monitors alone, and does not end the iteration with
a liveness violation. -/
structure Spared (it after : Iteration γ) : Prop where
  sameKind : after.strategy.SameKind it.strategy
  monitors : after.monitors = it.monitors
  phase : after.phase = .stopped (.bugFound .liveness) → it.phase = .stopped (.bugFound .liveness)

/-- A call for a turn spares an unwatched iteration. -/
theorem Unwatched.scheduleNext (h : it.Unwatched) : Spared it it.scheduleNext.2 := by
  have hscheduled := it.scheduled
  generalize it.scheduleNext = result at hscheduled
  have hwaiting : it.enableWaiting.Unwatched := ⟨h.shape, h.unfair, h.unviolated⟩
  cases hscheduled with
  | ended => exact ⟨.refl _, rfl, id⟩
  | empty => exact ⟨.refl _, rfl, id⟩
  | completed _ hopen =>
    have hrunning : it.enableWaiting.isRunning = true := hopen.1
    refine ⟨(sameTable_stop _ _).strategy.sameKind, monitors_stop _ _, fun hphase => ?_⟩
    cases (phase_stop hrunning _).symm.trans hphase
  | atBound _ hopen =>
    obtain ⟨hmonitors, hphase⟩ := hwaiting.endAtBound hopen.1
    exact ⟨(sameTable_endAtBound _).strategy.sameKind, hmonitors, fun hended => absurd hended hphase⟩
  | consulted _ hanswer hresult hopen =>
    obtain ⟨hkind, hmonitors, hphase⟩ := hwaiting.consulted hanswer
    cases hresult with
    | unanswered =>
      refine ⟨(sameTable_endWithoutChoice _).strategy.sameKind.trans hkind,
        (monitors_endWithoutChoice _).trans hmonitors, fun hended => ?_⟩
      have hstill : it.enableWaiting.isRunning = true := hopen.1
      rw [isRunning, ← hphase, ← isRunning] at hstill
      rw [endWithoutChoice] at hended
      split at hended
      · cases (phase_reportBug hstill _ _).symm.trans hended
      · cases (phase_stop hstill _).symm.trans hended
    | _ => exact ⟨hkind, hmonitors, fun hended => hphase.symm.trans hended⟩

/-- A call for a value spares an unwatched iteration. -/
theorem Unwatched.choose (h : it.Unwatched) (query : Query) : Spared it (it.choose query).2 := by
  have hchosen := it.chosen query
  generalize it.choose query = result at hchosen
  have hconsulted {answer : Except Fault (Option (Option query.Answer)) × Iteration γ}
      (hanswer : Consulted query it answer) : Spared it answer.2 := by
    obtain ⟨hkind, hmonitors, hphase⟩ := h.consulted hanswer
    exact ⟨hkind, hmonitors, fun hended => hphase.symm.trans hended⟩
  cases hchosen with
  | ended => exact ⟨.refl _, rfl, id⟩
  | atBound _ hrunning =>
    obtain ⟨hmonitors, hphase⟩ := h.endAtBound hrunning
    exact ⟨(sameTable_endAtBound _).strategy.sameKind, hmonitors, fun hended => absurd hended hphase⟩
  | failed _ _ hanswer => exact hconsulted hanswer
  | violated _ _ hanswer => exact hconsulted hanswer
  | unanswered _ _ hanswer => exact hconsulted hanswer
  | given _ _ hanswer =>
    have hspared := hconsulted hanswer
    exact ⟨hspared.sameKind, hspared.monitors, hspared.phase⟩

/-- Every call spares the monitors of an unwatched iteration, and it ends it with a liveness violation
only if it says so. -/
theorem Unwatched.perform (h : it.Unwatched) (call : Call) :
    (it.perform call).2.Unwatched ∧ it.monitors.Spares (it.perform call).2.monitors ∧
      ((it.perform call).2.phase = .stopped (.bugFound .liveness) →
        it.phase = .stopped (.bugFound .liveness) ∨ call.Tells .liveness) := by
  have hself := Monitors.Spares.refl h.unviolated
  have hspared {after : Iteration γ} (hspared : Spared it after) :
      after.Unwatched ∧ it.monitors.Spares after.monitors ∧
        (after.phase = .stopped (.bugFound .liveness) →
          it.phase = .stopped (.bugFound .liveness) ∨ call.Tells .liveness) := by
    have hmonitors := hspared.monitors
    refine ⟨h.of_sameKind hspared.sameKind (hmonitors ▸ h.unviolated), ?_, Or.inl ∘ hspared.phase⟩
    rw [hmonitors]
    exact hself
  cases call with
  | schedule => exact hspared h.scheduleNext
  | boolean => exact hspared (h.choose (.boolean 2))
  | integer bound => exact hspared (h.choose (.integer bound))
  | reportBug kind message =>
    have hmonitors := monitors_reportBug kind message it
    refine ⟨h.of_sameKind (sameTable_reportBug _ _ it).strategy.sameKind (hmonitors ▸ h.unviolated),
      ?_, fun hphase => ?_⟩
    · rw [Iteration.perform, hmonitors]
      exact hself
    · rw [Iteration.perform, reportBug] at hphase
      split at hphase
      · exact .inr (Outcome.bugFound.inj (Phase.stopped.inj hphase))
      · exact .inl hphase
  | stop outcome =>
    have hmonitors := monitors_stop outcome it
    refine ⟨h.of_sameKind (sameTable_stop _ it).strategy.sameKind (hmonitors ▸ h.unviolated),
      ?_, fun hphase => ?_⟩
    · rw [Iteration.perform, hmonitors]
      exact hself
    · rw [Iteration.perform, stop] at hphase
      split at hphase
      · exact .inr (Phase.stopped.inj hphase)
      · exact .inl hphase
  | setMonitor id isHot =>
    exact ⟨⟨h.shape, h.unfair, h.unviolated⟩, Monitors.spares_set h.unviolated id isHot, .inl⟩
  | _ => exact ⟨⟨h.shape, h.unfair, h.unviolated⟩, hself, .inl⟩

/-- However many calls spare the monitors of an unwatched iteration. -/
theorem Unwatched.after (h : it.Unwatched) (calls : List Call) :
    (it.after calls).Unwatched ∧ it.monitors.Spares (it.after calls).monitors ∧
      ((it.after calls).phase = .stopped (.bugFound .liveness) →
        it.phase = .stopped (.bugFound .liveness) ∨ ∃ call ∈ calls, call.Tells .liveness) := by
  induction calls generalizing it with
  | nil => exact ⟨h, .refl h.unviolated, .inl⟩
  | cons call rest ih =>
    obtain ⟨hcall, hspares, hphase⟩ := h.perform call
    obtain ⟨hrest, hlater, hending⟩ := ih hcall
    refine ⟨hrest, hspares.trans hlater, fun hended => ?_⟩
    rcases hending hended with hbefore | ⟨told, htold, hsays⟩
    · rcases hphase hbefore with hstart | hsays
      · exact .inl hstart
      · exact .inr ⟨call, List.mem_cons_self, hsays⟩
    · exact .inr ⟨told, List.mem_cons_of_mem call htold, hsays⟩

/-- What comes about by calls of a program spares the monitors too. -/
theorem Unwatched.isDriven {after : Iteration γ} (h : it.Unwatched) (hdriven : it.IsDriven after) :
    after.Unwatched ∧ it.monitors.Spares after.monitors ∧
      (after.phase = .stopped (.bugFound .liveness) → it.phase = .stopped (.bugFound .liveness)) := by
  have harises {after : Iteration γ} (harises : it.Arises after) :
      after.Unwatched ∧ it.monitors.Spares after.monitors ∧
        (after.phase = .stopped (.bugFound .liveness) →
          it.phase = .stopped (.bugFound .liveness)) := by
    obtain ⟨calls, hcalls, rfl⟩ := harises
    obtain ⟨hunwatched, hspares, hphase⟩ := h.after calls
    refine ⟨hunwatched, hspares, fun hended => (hphase hended).resolve_right ?_⟩
    rintro ⟨call, hcall, hsays⟩
    -- A program stops no iteration, and reports no liveness violation.
    have hprogram := hcalls call hcall
    cases call with
    | stop => exact hprogram
    | reportBug kind message =>
      obtain rfl : kind = .liveness := hsays
      rcases hprogram with hkind | hkind <;> cases hkind
    | _ => exact hsays
  rcases hdriven with hcalls | ⟨before, fault, hcalls, rfl⟩
  · exact harises hcalls
  · obtain ⟨hunwatched, hspares, -⟩ := harises hcalls
    exact ⟨⟨hunwatched.shape, hunwatched.unfair, hunwatched.unviolated⟩, hspares,
      fun hended => by cases hended⟩

/-- The monitors of an iteration are left to the program. -/
structure LeavesMonitors (start : Iteration γ) : Prop where
  /-- Between any two calls nothing is checked or found, and no monitor becomes warmer. -/
  calls : ∀ earlier later,
    (start.after earlier).monitors.Spares (start.after (earlier ++ later)).monitors
  /-- The iteration ends with a liveness violation only if a call says so. -/
  ending : ∀ calls, (start.after calls).outcome? = some (.bugFound .liveness) →
    ∃ call ∈ calls, call.Tells .liveness
  /-- Between any two steps of a program nothing is checked or found, and no monitor becomes
  warmer. -/
  runs : ∀ {σ μ : Type} (program : Program σ μ) (fuel more : Nat),
    ((Execution.start program start).run program fuel).iteration.monitors.Spares
      ((Execution.start program start).run program (fuel + more)).iteration.monitors
  /-- No run of a program ends with a liveness violation. -/
  runEnding : ∀ {σ μ : Type} (program : Program σ μ) (fuel : Nat),
    ((Execution.start program start).run program fuel).iteration.outcome? ≠
      some (.bugFound .liveness)

omit [RandomSource γ] in
/-- An iteration has an outcome if it is stopped with it. -/
theorem phase_of_outcome? {outcome : Outcome} (h : it.outcome? = some outcome) :
    it.phase = .stopped outcome := by
  rw [outcome?] at h
  split at h
  · next hphase => rw [hphase, Option.some.inj h]
  · cases h

/-- An unfair strategy that watches the monitors at most at the outside leaves them to the program: in
an iteration that begins without a violation, whatever the calls or the program, the monitors are not
checked, none becomes warmer and no violation is recorded, and the iteration does not end with one. -/
theorem leavesMonitors_of_unfair {strategy : Strategy γ} (hshape : strategy.IsOutermost)
    (hunfair : strategy.isFair = false) {monitors : Monitors} (hclean : monitors.violation = none)
    (coverage : Coverage) (depthBoundIsBug : Bool) :
    LeavesMonitors ({ strategy, monitors, coverage, depthBoundIsBug } : Iteration γ) := by
  have hstart : ({ strategy, monitors, coverage, depthBoundIsBug } : Iteration γ).Unwatched :=
    ⟨hshape, hunfair, hclean⟩
  generalize hphase : ({ strategy, monitors, coverage, depthBoundIsBug } : Iteration γ) = start at *
  have hgoesOn : start.phase ≠ .stopped (.bugFound .liveness) := by
    rw [← hphase]
    exact fun hended => by cases hended
  refine ⟨fun earlier later => ?_, fun calls hended => ?_, fun program fuel more => ?_,
    fun program fuel hended => ?_⟩
  · rw [after_append]
    exact ((hstart.after earlier).1.after later).2.1
  · exact ((hstart.after calls).2.2 (phase_of_outcome? hended)).resolve_left hgoesOn
  · have hfirst := (hstart.isDriven (Execution.isDriven_start program start fuel)).1
    rw [Execution.run_add]
    exact (hfirst.isDriven (Execution.isDriven_run program (.inl (.refl _)) more)).2.1
  · have hrun := hstart.isDriven (Execution.isDriven_start program start fuel)
    exact hgoesOn (hrun.2.2 (phase_of_outcome? hended))

/-- One decision depth first, with the monitors watched. -/
def watchedDepthFirst : Strategy Tape :=
  .liveness (.depthFirst { maxSteps := 1 })

/-- A monitor becomes hot, and a value is asked for at the step bound. -/
def hotAtTheEnd : List Call :=
  [.register "a", .change ⟨0⟩ .create, .setMonitor ⟨0⟩ true, .boolean, .boolean]

/-- The monitor is hot at the end, and the iteration still ends at its step bound without a bug. -/
theorem leavesMonitors_of_unfair_hotAtTheEnd :
    watchedDepthFirst.IsOutermost ∧ watchedDepthFirst.isFair = false ∧
      (Monitors.ofNames 0 ["m"]).violation = none ∧
      LeavesMonitors { strategy := watchedDepthFirst, monitors := Monitors.ofNames 0 ["m"] } ∧
      (after { strategy := watchedDepthFirst, monitors := Monitors.ofNames 0 ["m"] }
        hotAtTheEnd).outcome? = some .stepBoundReached :=
  ⟨.inr rfl, rfl, rfl, leavesMonitors_of_unfair (.inr rfl) rfl rfl {} false, rfl⟩

end Iteration

end ScheduleExplorer
