import ScheduleExplorer.Proofs.Execution.Scheduling
import ScheduleExplorer.Proofs.Execution.Turn

/-!
# Runs and their traces

A run is taken apart at any number of steps, and it stays where it is once its iteration has ended.
Along a run decisions are only ever added to the trace, so the trace of every part of a run begins
the trace of the whole.
-/

namespace ScheduleExplorer

variable {γ σ μ : Type}

namespace Iteration

/-- Ending an iteration keeps its trace. -/
theorem trace_stop (outcome : Outcome) (it : Iteration γ) : (it.stop outcome).trace = it.trace := by
  rw [stop]
  split <;> rfl

/-- Reporting a bug keeps the trace. -/
theorem trace_reportBug (kind : BugKind) (message : String) (it : Iteration γ) :
    (it.reportBug kind message).trace = it.trace := by
  rw [reportBug]
  split <;> rfl

/-- Reaching the bound keeps the trace. -/
theorem trace_endAtBound (it : Iteration γ) : it.endAtBound.trace = it.trace := by
  rw [endAtBound_eq]
  unfold closeAtBound
  split
  · exact trace_reportBug _ _ _
  · split
    · exact trace_reportBug _ _ _
    · exact trace_stop _ _

/-- Ending without a choice keeps the trace. -/
theorem trace_endWithoutChoice (it : Iteration γ) : it.endWithoutChoice.trace = it.trace := by
  rw [endWithoutChoice]
  split
  · exact trace_reportBug _ _ it
  · exact trace_stop _ it

variable [RandomSource γ]

/-- A consultation keeps the trace. -/
theorem Consulted.trace {query : Query} {it : Iteration γ}
    {result : Except Fault (Option (Option query.Answer)) × Iteration γ}
    (h : Consulted query it result) : result.2.trace = it.trace := by
  cases h with
  | violated => exact trace_reportBug _ _ _
  | _ => rfl

/-- A turn that is asked for adds the decision to the trace if it is given out, and nothing
otherwise. -/
theorem trace_scheduleNext (it : Iteration γ) :
    it.scheduleNext.2.trace = it.trace ∨
      ∃ decision, it.scheduleNext.2.trace = it.trace.push decision := by
  have hscheduled := it.scheduled
  generalize it.scheduleNext = result at hscheduled ⊢
  cases hscheduled with
  | ended => exact .inl rfl
  | empty => exact .inl rfl
  | completed => exact .inl (trace_stop _ _)
  | atBound => exact .inl (trace_endAtBound _)
  | consulted _ hanswer hresult =>
    have hkept := hanswer.trace
    cases hresult with
    | failed => exact .inl hkept
    | violated => exact .inl hkept
    | unanswered => exact .inl ((trace_endWithoutChoice _).trans hkept)
    | refused => exact .inl hkept
    | scheduled => exact .inr ⟨_, congrArg (Trace.push _) hkept⟩

/-- A value that is asked for is added to the trace if it is given out, and nothing is added
otherwise. -/
theorem trace_choose (query : Query) (it : Iteration γ) :
    (it.choose query).2.trace = it.trace ∨
      ∃ decision, (it.choose query).2.trace = it.trace.push decision := by
  have hchosen := it.chosen query
  generalize it.choose query = result at hchosen ⊢
  cases hchosen with
  | ended => exact .inl rfl
  | atBound => exact .inl (trace_endAtBound it)
  | failed _ _ hanswer => exact .inl hanswer.trace
  | violated _ _ hanswer => exact .inl hanswer.trace
  | unanswered _ _ hanswer => exact .inl hanswer.trace
  | given _ _ hanswer => exact .inr ⟨_, congrArg (Trace.push _) hanswer.trace⟩

end Iteration

namespace Execution

/-- A turn keeps the trace as long as nothing is asked. -/
theorem SameRun.trace {ex after : Execution γ σ μ} (h : ex.SameRun after) :
    after.iteration.trace = ex.iteration.trace := by
  obtain ⟨operations, coverage, monitors, hsame, -⟩ := h
  rw [hsame]

/-- A turn keeps the strategy as long as nothing is asked. -/
theorem SameRun.strategy {ex after : Execution γ σ μ} (h : ex.SameRun after) :
    after.iteration.strategy = ex.iteration.strategy := by
  obtain ⟨operations, coverage, monitors, hsame, -⟩ := h
  rw [hsame]

/-- A turn keeps the iteration running as long as nothing is asked. -/
theorem SameRun.isRunning {ex after : Execution γ σ μ} (h : ex.SameRun after) :
    after.iteration.isRunning = ex.iteration.isRunning := by
  obtain ⟨operations, coverage, monitors, hsame, -⟩ := h
  rw [hsame]
  rfl

/-- A turn stays with its operation as long as nothing is asked. -/
theorem SameRun.current {ex after : Execution γ σ μ} (h : ex.SameRun after) :
    after.iteration.current = ex.iteration.current := by
  obtain ⟨operations, coverage, monitors, hsame, -⟩ := h
  rw [hsame]

/-- A turn keeps the record of violations as long as nothing is asked. -/
theorem SameRun.violation {ex after : Execution γ σ μ} (h : ex.SameRun after) :
    after.iteration.monitors.violation = ex.iteration.monitors.violation := by
  obtain ⟨operations, coverage, monitors, hsame, -⟩ := h
  rw [hsame]

variable [RandomSource γ]

/-- No step is taken after the end of the iteration. -/
theorem step_eq_none {program : Program σ μ} {ex : Execution γ σ μ}
    (h : ex.iteration.isRunning = false) : ex.step program = none := by
  simp only [step, h, Bool.false_eq_true, if_false]

/-- A run stays where no step is taken. -/
theorem run_eq_self {program : Program σ μ} {ex : Execution γ σ μ} (h : ex.step program = none)
    (fuel : Nat) : ex.run program fuel = ex := by
  cases fuel with
  | zero => rfl
  | succ fuel => rw [run, h]

/-- A run that begins with a step. -/
theorem run_succ {program : Program σ μ} {ex after : Execution γ σ μ}
    (h : ex.step program = some after) (fuel : Nat) :
    ex.run program (fuel + 1) = after.run program fuel := by
  rw [run, h]

/-- A run is taken apart at any number of steps. -/
theorem run_add (program : Program σ μ) (ex : Execution γ σ μ) (first rest : Nat) :
    ex.run program (first + rest) = (ex.run program first).run program rest := by
  induction first generalizing ex with
  | zero => rw [Nat.zero_add, run]
  | succ first ih =>
    cases hstep : ex.step program with
    | none => rw [run_eq_self hstep, run_eq_self hstep, run_eq_self hstep]
    | some after => rw [Nat.succ_add, run_succ hstep, run_succ hstep, ih]

/-- A run stays as it is when its iteration has ended. -/
theorem run_eq_run {program : Program σ μ} {ex : Execution γ σ μ} {first later : Nat}
    (h : (ex.run program first).iteration.isRunning = false) (hle : first ≤ later) :
    ex.run program later = ex.run program first := by
  obtain ⟨rest, rfl⟩ := Nat.exists_eq_add_of_le hle
  rw [run_add, run_eq_self (step_eq_none h)]

/-- No step is taken when the execution is over. -/
theorem step_eq_none_of_isOver {program : Program σ μ} {ex : Execution γ σ μ}
    (h : ex.isOver = true) : ex.step program = none := by
  rw [isOver, Bool.or_eq_true, Bool.not_eq_true', Bool.not_eq_true'] at h
  rcases h with hended | hgone
  · exact step_eq_none hended
  · have hlive (stage : Stage σ) (hstage : ex.stage? ex.iteration.current = some stage) :
        stage.isLive = false := by
      rw [List.any_eq_false] at hgone
      exact Bool.eq_false_iff.mpr (hgone stage (List.mem_of_getElem? hstage))
    unfold step
    dsimp only
    split
    · split
      · next hstage => cases hlive _ hstage
      · next hstage => cases hlive _ hstage
      · rfl
    · rfl

/-- A step adds to the trace. -/
theorem trace_step {program : Program σ μ} {ex after : Execution γ σ μ}
    (h : ex.step program = some after) :
    ex.iteration.trace.toList <+: after.iteration.trace.toList := by
  rw [step_eq_settle, Option.map_eq_some_iff] at h
  obtain ⟨turn, hturn, rfl⟩ := h
  rw [← (isOf_turn hturn).2.sameRun.trace]
  have hgrows {before later : Trace} (h : later = before ∨ ∃ decision, later = before.push decision) :
      before.toList <+: later.toList := by
    rcases h with rfl | ⟨decision, rfl⟩
    · exact List.prefix_refl _
    · rw [Trace.toList_push]
      exact List.prefix_append _ _
  cases turn with
  | quiet before => exact List.prefix_refl _
  | point before =>
    have hadded := before.iteration.trace_scheduleNext
    rw [Turn.settle, reschedule]
    split <;> next heq =>
      rw [heq] at hadded
      exact hgrows hadded
  | choice id next query wrap before =>
    have hadded := before.iteration.trace_choose query
    rw [Turn.settle, choose]
    split <;> next heq =>
      rw [heq] at hadded
      exact hgrows hadded
  | bug kind message before =>
    exact hgrows (.inl (Iteration.trace_reportBug kind message before.iteration))
  | fault cause before => exact List.prefix_refl _

/-- A run adds to the trace. -/
theorem trace_run (program : Program σ μ) (ex : Execution γ σ μ) (fuel : Nat) :
    ex.iteration.trace.toList <+: (ex.run program fuel).iteration.trace.toList := by
  induction fuel generalizing ex with
  | zero => exact List.prefix_refl _
  | succ fuel ih =>
    cases hstep : ex.step program with
    | none => simp only [run_eq_self hstep, List.prefix_refl]
    | some after =>
      rw [run_succ hstep]
      exact (trace_step hstep).trans (ih after)

/-- A run takes no decision back. -/
theorem size_trace_le_run (program : Program σ μ) (ex : Execution γ σ μ) (fuel : Nat) :
    ex.iteration.trace.size ≤ (ex.run program fuel).iteration.trace.size :=
  (trace_run program ex fuel).length_le

/-- A run that is not given up was not given up on its way. -/
theorem phase_ne_aborted_of_run {program : Program σ μ} {ex : Execution γ σ μ} {fuel : Nat}
    (h : (ex.run program fuel).iteration.phase ≠ .aborted) : ex.iteration.phase ≠ .aborted := by
  intro haborted
  have hended : ex.iteration.isRunning = false := by
    rw [Iteration.isRunning, haborted]
    rfl
  rw [run_eq_self (step_eq_none hended)] at h
  exact h haborted

end Execution

/-- The result of a program is what its last execution leaves behind, if it is over. -/
theorem Program.run_eq_some [RandomSource γ] {program : Program σ μ} {it : Iteration γ}
    {fuel : Nat} {result : IterationResult γ} {memory : μ} :
    program.run fuel it = some (result, memory) ↔
      ((Execution.start program it).run program fuel).isOver = true ∧
        ((Execution.start program it).run program fuel).iteration.finish = result ∧
        ((Execution.start program it).run program fuel).memory = memory := by
  rw [Program.run, Execution.result?]
  split
  · next hover => simp [hover]
  · next hleft => simp [hleft]

/-- More fuel changes nothing once a program has a result. -/
theorem Program.run_of_le [RandomSource γ] {program : Program σ μ} {it : Iteration γ}
    {result : IterationResult γ × μ} {fuel more : Nat} (hle : fuel ≤ more)
    (h : program.run fuel it = some result) : program.run more it = some result := by
  obtain ⟨rest, rfl⟩ := Nat.exists_eq_add_of_le hle
  have hover := (Program.run_eq_some.mp h).1
  rw [Program.run, Execution.run_add,
    Execution.run_eq_self (Execution.step_eq_none_of_isOver hover)]
  exact h

end ScheduleExplorer
