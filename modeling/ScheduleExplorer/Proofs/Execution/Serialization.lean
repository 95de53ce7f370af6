import ScheduleExplorer.Proofs.Execution.Recorded

/-!
# One operation at a time

While an iteration runs, exactly one operation may proceed: the one whose turn it is. It is enabled,
its body has not ended, and every other body is parked, has not begun or has completed. This holds
at every step of every execution, with one exception: a body may give up, which passes the turn on
to nobody. Then the iteration runs on with the turn at a body that has ended, and no step is ever
taken again.
-/

namespace ScheduleExplorer

variable {γ σ μ : Type}

namespace Execution

/-- Exactly the operation whose turn it is may proceed. -/
structure Serialized (ex : Execution γ σ μ) : Prop where
  enabled : ex.isEnabled ex.iteration.current = true
  live : ex.HasLiveTurn
  others : ∀ id stage, id ≠ ex.iteration.current → ex.stage? id = some stage →
    stage = .announced ∨ (∃ primitive next, stage = .parked primitive next) ∨
      (stage = .ended ∧ ex.iteration.isCompleted id = true)

variable [RandomSource γ] {program : Program σ μ} {ex after : Execution γ σ μ}

/-- The last step was that the body whose turn it is gave up. -/
def GivenUp (program : Program σ μ) (ex : Execution γ σ μ) : Prop :=
  ∃ before : Execution γ σ μ, before.step program = some ex ∧
    before.action? program = some .giveUp

/-- A body that gives up has ended, and the turn stays at it. -/
theorem GivenUp.stage? (h : ex.GivenUp program) :
    ex.iteration.isRunning = true ∧ ex.stage? ex.iteration.current = some .ended := by
  obtain ⟨before, hstep, haction⟩ := h
  have hrunning := isRunning_of_step hstep
  rw [action?] at haction
  split at haction
  · next state reply hstage =>
    have hact := Option.some.inj haction
    simp only [step, hrunning, if_true, hstage, hact, act, Option.some.injEq] at hstep
    subst hstep
    exact ⟨hrunning, (Moves.setStage before.iteration.current .ended before).stage?_self hstage⟩
  · cases haction

/-- Where the turn is at an enabled operation whose body has not ended, a step is taken. -/
theorem exists_step (hrunning : ex.iteration.isRunning = true) (hlive : ex.HasLiveTurn)
    (henabled : ex.isEnabled ex.iteration.current = true) :
    ∃ after, ex.step program = some after := by
  obtain ⟨stage, hstage, hlive⟩ := hlive
  cases stage with
  | announced => cases hlive
  | ended => cases hlive
  | parked primitive next => simp [step, hrunning, hstage, henabled]
  | running state reply => simp [step, hrunning, hstage]

/-- Where the turn is at a body that has ended, no step is taken. -/
theorem step_eq_none_of_ended (hended : ex.stage? ex.iteration.current = some .ended) :
    ex.step program = none := by
  simp [step, hended]

omit [RandomSource γ] in
/-- Bodies that stand in order are serialized if the one whose turn it is has not ended. -/
theorem InOrder.serialized {pending : OperationId → Option (Request σ)}
    (h : ex.InOrder pending ex.iteration.current) (hsettled : ex.Settled)
    (hlive : ex.HasLiveTurn) : ex.Serialized := by
  refine ⟨h.isEnabled, hlive, fun id stage hne hstage => ?_⟩
  obtain ⟨op, hop⟩ := hsettled.exists_operation? hstage
  have haccords := h.orderly.accords id op stage hop hstage
  generalize pending id = call at haccords
  cases haccords with
  | announced => exact .inl rfl
  | parked => exact .inr (.inl ⟨_, _, rfl⟩)
  | running hturn => exact absurd hturn hne
  | ended hdone =>
    have hstatus := hdone.resolve_right hne
    refine .inr (.inr ⟨rfl, ?_⟩)
    rw [Iteration.isCompleted, hop, Option.any_some, hstatus]
    rfl

namespace Recorded

variable {journal : Journal σ}

/-- In a recorded execution the turn is at a body that has not ended, unless this body gave up. -/
theorem hasLiveTurn (h : Recorded program ex journal) (hrunning : ex.iteration.isRunning = true) :
    ex.HasLiveTurn ∨ ex.GivenUp program := by
  cases h with
  | start => exact .inl ⟨.parked .start program.main, rfl, rfl⟩
  | @step before _ journal h hstep =>
    have hin := h.inOrder (isRunning_of_step hstep)
    exact ((hin.step h.settled hstep).2 hrunning).2.imp_right fun haction =>
      ⟨before, hstep, haction⟩

/-- While the iteration of a recorded execution runs, exactly the operation whose turn it is may
proceed, and it takes a step, unless its body has given up. If it has, its operation is still
enabled and keeps the turn, and no step is taken. -/
theorem serialized_iff (h : Recorded program ex journal)
    (hrunning : ex.iteration.isRunning = true) :
    (ex.Serialized ↔ ¬ ex.GivenUp program) ∧
      ((∃ after, ex.step program = some after) ↔ ¬ ex.GivenUp program) ∧
      (ex.GivenUp program → ex.isEnabled ex.iteration.current = true ∧
        ex.stage? ex.iteration.current = some .ended) := by
  have hin := h.inOrder hrunning
  by_cases hgave : ex.GivenUp program
  · have hended := hgave.stage?.2
    have hdead : ¬ ex.HasLiveTurn := by
      rintro ⟨stage, hstage, hlive⟩
      obtain rfl := Option.some.inj (hended.symm.trans hstage)
      cases hlive
    refine ⟨iff_of_false (fun hserialized => hdead hserialized.live) (not_not_intro hgave),
      iff_of_false (fun hstep => ?_) (not_not_intro hgave), fun _ => ⟨hin.isEnabled, hended⟩⟩
    obtain ⟨after, hstep⟩ := hstep
    rw [step_eq_none_of_ended hended] at hstep
    cases hstep
  · have hlive := (h.hasLiveTurn hrunning).resolve_right hgave
    exact ⟨iff_of_true (hin.serialized h.settled hlive) hgave,
      iff_of_true (exists_step hrunning hlive hin.isEnabled) hgave, fun h => absurd h hgave⟩

end Recorded

/-- A program whose first operation spawns another and then gives up, or returns. -/
def starter (givesUp : Bool) : Program Nat Unit where
  main := 0
  memory := ()
  resume _ state _ memory :=
    let action : Action Nat :=
      match state with
      | 0 => .call (.spawn "other" 2) 1
      | 1 => if givesUp then .giveUp else .finish
      | _ => .finish
    (action, memory)
  hasher := some fun _ => {}

/-- The operation that returns passes the turn on to the one that it has spawned. -/
theorem serialized_iff_starter :
    ((first (starter false)).run (starter false) 4).iteration.isRunning = true ∧
      ((first (starter false)).run (starter false) 4).Serialized := by
  have hrecorded := recorded_first (starter false) 4
  have hrunning : ((first (starter false)).run (starter false) 4).iteration.isRunning = true := by
    decide +kernel
  refine ⟨hrunning, (hrecorded.serialized_iff hrunning).1.mpr fun hgave => ?_⟩
  have hlive : (((first (starter false)).run (starter false) 4).stage? ⟨1⟩).any Stage.isLive =
      true := by
    decide +kernel
  have hturn : ((first (starter false)).run (starter false) 4).iteration.current = ⟨1⟩ := by
    decide +kernel
  rw [← hturn, hgave.stage?.2] at hlive
  cases hlive

/-- The operation that gives up keeps the turn: the iteration runs on, the body that it has spawned
is parked, and no step is taken. -/
theorem not_serialized_starter :
    ((first (starter true)).run (starter true) 4).iteration.isRunning = true ∧
      ((first (starter true)).run (starter true) 4).iteration.current = ⟨0⟩ ∧
      (((first (starter true)).run (starter true) 4).stage? ⟨1⟩).any Stage.isLive = true ∧
      (((first (starter true)).run (starter true) 4).step (starter true)).isNone = true ∧
      ¬ ((first (starter true)).run (starter true) 4).Serialized := by
  refine ⟨by decide +kernel, by decide +kernel, by decide +kernel, by decide +kernel, ?_⟩
  intro hserialized
  obtain ⟨stage, hstage, hlive⟩ := hserialized.live
  have hended : (((first (starter true)).run (starter true) 4).stage?
      ((first (starter true)).run (starter true) 4).iteration.current).any Stage.isLive = false := by
    decide +kernel
  rw [hstage, Option.any_some, hlive] at hended
  cases hended

end Execution

end ScheduleExplorer
