import ScheduleExplorer.Proofs.Strategy.Watching

/-!
# Compositions of strategies

A new strategy of any kind, with any parameters, may drive an iteration, and so may any combination
of such strategies. After the iteration they move on or are reset, and drive the next one.

`Strategy.Composed` collects what can drive an iteration in this way. All of it is well-formed, has
taken no step and watches no monitors; watching them is left to a decorator at the outside.
-/

namespace ScheduleExplorer

namespace Strategy

variable {γ : Type} [RandomSource γ]

/-- What a strategy may become within an iteration. -/
inductive BecomesWithin (s : Strategy γ) : Strategy γ → Prop where
  | refl : BecomesWithin s s
  | answer {now : Strategy γ} {current : Operation} {query : Query} (h : BecomesWithin s now)
      (hquery : query.IsAskedBy current) (monitors : Monitors) :
      BecomesWithin s (now.answer current query monitors).2.1
  | takeFault {now : Strategy γ} (h : BecomesWithin s now) : BecomesWithin s now.takeFault.2
  | notifyBug {now : Strategy γ} (h : BecomesWithin s now) : BecomesWithin s now.notifyBug

/-- The strategies without a decorator, as they stand at the beginning of an iteration: new ones of
every kind, their combinations, and what has moved on or is reset after an iteration. -/
inductive Composed : Strategy γ → Prop where
  | random (source : γ) (maxSteps : Nat) : Composed (.random (.ofSource source maxSteps))
  | sticky (source : γ) (maxSteps coinFlips : Nat) :
      Composed (.sticky { walk := .ofSource source maxSteps, coinFlips })
  | delayBounding (source : γ) (maxSteps maxDelays : Nat) (isIterative : Bool)
      (level : AbstractionLevel) :
      Composed (.delayBounding (.ofSource source maxSteps maxDelays isIterative level))
  | priority (source : γ) (maxSteps maxChangePoints : Nat) :
      Composed (.priority (.ofSource source maxSteps maxChangePoints))
  | depthFirst (maxSteps : Nat) : Composed (.depthFirst { maxSteps })
  | dpor (maxSteps : Nat) : Composed (.dpor { maxSteps })
  | randomDpor (source : γ) (maxSteps limit : Nat) :
      Composed (.dpor (.ofSource source maxSteps limit))
  | qLearning (source : γ) (maxSteps : Nat) (level : AbstractionLevel) :
      Composed (.qLearning (.ofSource source maxSteps level))
  | novelty (source : γ) (maxSteps : Nat) (level : AbstractionLevel) :
      Composed (.novelty (.ofSource source maxSteps level))
  | replay (trace : Trace) (maxSteps : Nat) (isFair : Bool) :
      Composed (.replay { trace, maxSteps, isFair })
  | combo {lead rest : Strategy γ} (hlead : Composed lead) (hrest : Composed rest) :
      Composed (.combo lead rest)
  | prepare {s now : Strategy γ} (h : Composed s) (hnow : s.BecomesWithin now) :
      Composed now.prepare.2
  | reset {s now : Strategy γ} (h : Composed s) (hnow : s.BecomesWithin now) :
      Composed now.reset

variable [LawfulRandomSource γ]

/-- Within an iteration a strategy stays well-formed and of its kind. -/
theorem BecomesWithin.wellFormed {s now : Strategy γ} (h : s.BecomesWithin now)
    (hs : s.WellFormed) : now.WellFormed ∧ now.SameKind s := by
  induction h with
  | refl => exact ⟨hs, .refl s⟩
  | answer _ hquery monitors ih =>
    have hanswered := answered hquery ih.1 monitors
    exact ⟨hanswered.wellFormed, hanswered.sameKind.trans ih.2⟩
  | @takeFault now _ ih =>
    have hkept := keeps_takeFault now
    exact ⟨hkept.wellFormed ih.1, hkept.sameKind.trans ih.2⟩
  | @notifyBug now _ ih =>
    have hkept := keeps_notifyBug now
    exact ⟨hkept.wellFormed ih.1, hkept.sameKind.trans ih.2⟩

/-- What can drive an iteration is well-formed, has taken no step and watches no monitors. -/
theorem Composed.atStart {s : Strategy γ} (h : s.Composed) :
    s.WellFormed ∧ s.steps = 0 ∧ s.isPlain = true := by
  have hrestarts {s now after : Strategy γ} (hs : s.WellFormed) (hplain : s.isPlain = true)
      (hnow : s.BecomesWithin now) (hafter : now.WellFormed → Restarts now after) :
      after.WellFormed ∧ after.steps = 0 ∧ after.isPlain = true := by
    obtain ⟨hwellFormed, hkind⟩ := hnow.wellFormed hs
    have hrestarted := hafter hwellFormed
    exact ⟨hrestarted.wellFormed hwellFormed, congrArg Clock.steps hrestarted.clock,
      (hrestarted.sameKind.trans hkind).isPlain.trans hplain⟩
  induction h with
  | combo _ _ ihLead ihRest =>
    obtain ⟨hlead, hleadSteps, hleadPlain⟩ := ihLead
    obtain ⟨hrest, hrestSteps, hrestPlain⟩ := ihRest
    refine ⟨⟨hlead, hrest, fun _ => hrestSteps⟩, ?_, ?_⟩
    · rw [steps, hleadSteps, hrestSteps, ite_self]
    · rw [isPlain, hleadPlain, hrestPlain, Bool.and_self]
  | prepare _ hnow ih => exact hrestarts ih.1 ih.2.2 hnow restarts_prepare
  | reset _ hnow ih => exact hrestarts ih.1 ih.2.2 hnow fun _ => restarts_reset _
  | depthFirst maxSteps => exact ⟨Odometer.inRange_empty, rfl, rfl⟩
  | dpor maxSteps =>
    exact ⟨⟨Odometer.inRange_empty, fun _ hframe => absurd hframe List.not_mem_nil⟩, rfl, rfl⟩
  | randomDpor source maxSteps limit =>
    exact ⟨⟨Odometer.inRange_empty, fun _ hframe => absurd hframe List.not_mem_nil⟩, rfl, rfl⟩
  | _ => exact ⟨trivial, rfl, rfl⟩

end Strategy

end ScheduleExplorer
