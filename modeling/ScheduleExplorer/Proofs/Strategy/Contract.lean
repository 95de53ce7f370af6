import ScheduleExplorer.Config
import ScheduleExplorer.Proofs.Strategy.Learning
import ScheduleExplorer.Proofs.Strategy.Searches

/-!
# What every strategy promises

Every strategy that is built from a configuration, and every strategy it turns into, answers with a
possible answer, and answers nothing only if nothing is possible, a fault is recorded or a monitor
is violated. Its steps are the answers of the iteration, also across the parts of a combination.

`Strategy.WellFormed` is the invariant that carries this: searches hold choices in range, and the
rest of a combination takes no step before its lead is at its bound. From it follows how the step
bound of a combination lies beyond the bound of its rest.
-/

namespace ScheduleExplorer

variable {γ : Type}

/-! ### Replaying -/

namespace Replay

/-- The clock of a replay. -/
def clock (s : Replay) : Clock :=
  ⟨s.steps, s.maxSteps⟩

/-- A recorded decision answers a query only with a possible answer. -/
theorem mem_of_reply {decision : Decision} {query : Query} {value : query.Answer}
    (h : reply decision query = .ok value) : value ∈ query.alternatives := by
  cases query with
  | operation ops =>
    cases decision with
    | operation id =>
      simp only [reply] at h
      split at h
      · next henabled =>
        obtain rfl := Except.ok.inj h
        simpa [Query.alternatives, Operation.mem_enabledIds, Operation.isEnabledIn, and_comm]
          using henabled
      · cases h
    | boolean other => cases h
    | integer other => cases h
  | boolean bound => exact Query.mem_alternatives_boolean bound value
  | integer bound =>
    cases decision with
    | integer other =>
      simp only [reply] at h
      split at h
      · next hlt =>
        obtain rfl := Except.ok.inj h
        exact Query.mem_alternatives_integer.mpr hlt
      · cases h
    | operation id => cases h
    | boolean other => cases h

/-- A query that cannot be answered has no alternative. -/
theorem alternatives_eq_nil {query : Query} (h : isAnswerable query = false) :
    query.alternatives = [] := by
  cases query with
  | operation ops =>
    simpa [isAnswerable, Operation.anyEnabled, Query.alternatives, Operation.enabledIds] using h
  | boolean bound => cases h
  | integer bound => cases h

/-- A replay records a fault when it diverges. -/
theorem isSome_fault_diverge (reason : String) (s : Replay) : (s.diverge reason).fault.isSome := by
  rw [diverge]
  split
  · next fault hfault => rw [hfault, Option.isSome_some]
  · rfl

/-- A divergence is no step. -/
theorem clock_diverge (reason : String) (s : Replay) : (s.diverge reason).clock = s.clock := by
  rw [diverge]
  split <;> rfl

/-- A replay answers with a possible answer, which is counted, or it answers nothing because
nothing is possible or a fault is recorded. -/
theorem answer_cases (query : Query) (s : Replay) :
    (∃ value ∈ query.alternatives, s.answer query = (some value, s.advance)) ∨
      ∃ after : Replay, s.answer query = (none, after) ∧ after.clock = s.clock ∧
        after.isFair = s.isFair ∧ (query.alternatives = [] ∨ after.fault.isSome) := by
  rw [answer]
  split
  · next hnone =>
    refine .inr ⟨s, rfl, rfl, rfl, ?_⟩
    rw [Bool.or_eq_true, Bool.not_eq_true'] at hnone
    exact hnone.imp_left alternatives_eq_nil
  · have hdiverge (reason : String) : (s.diverge reason).isFair = s.isFair := by
      rw [diverge]
      split <;> rfl
    split
    · exact .inr ⟨_, rfl, clock_diverge _ s, hdiverge _, .inr (isSome_fault_diverge _ s)⟩
    · split
      · next value hreply => exact .inl ⟨value, mem_of_reply hreply, rfl⟩
      · exact .inr ⟨_, rfl, clock_diverge _ s, hdiverge _, .inr (isSome_fault_diverge _ s)⟩

end Replay

namespace Strategy

/-! ### The shape of a strategy -/

/-- The step bound of a strategy: the one of the last part of a combination. -/
def maxSteps : Strategy γ → Nat
  | random s => s.maxSteps
  | sticky s => s.walk.maxSteps
  | delayBounding s => s.walk.maxSteps
  | priority s => s.walk.maxSteps
  | depthFirst s => s.maxSteps
  | dpor s => s.maxSteps
  | qLearning s => s.walk.maxSteps
  | novelty s => s.walk.maxSteps
  | replay s => s.maxSteps
  | combo _ rest => rest.maxSteps
  | liveness inner => inner.maxSteps

/-- Whether a strategy runs one strategy after another. -/
def isCombined : Strategy γ → Bool
  | combo .. => true
  | liveness inner => inner.isCombined
  | _ => false

/-- The steps of the iteration and the step bound. -/
def clock (s : Strategy γ) : Clock :=
  ⟨s.steps, s.maxSteps⟩

/-- Whether a strategy watches no monitors. -/
def isPlain : Strategy γ → Bool
  | combo lead rest => lead.isPlain && rest.isPlain
  | liveness _ => false
  | _ => true

/-- Whether a strategy watches the monitors and the strategy inside does not. -/
def isDecorated : Strategy γ → Bool
  | liveness inner => inner.isPlain
  | _ => false

/-- Two strategies are equally fair, and made up in the same way as far as their kind tells. -/
structure SameKind (s other : Strategy γ) : Prop where
  isFair : s.isFair = other.isFair
  isCombined : s.isCombined = other.isCombined
  isPlain : s.isPlain = other.isPlain
  isDecorated : s.isDecorated = other.isDecorated

/-- A strategy is of its own kind. -/
theorem SameKind.refl (s : Strategy γ) : s.SameKind s :=
  ⟨rfl, rfl, rfl, rfl⟩

/-- Strategies of one kind are of the kind of a third. -/
theorem SameKind.trans {s between other : Strategy γ} (h : s.SameKind between)
    (h' : between.SameKind other) : s.SameKind other :=
  ⟨h.isFair.trans h'.isFair, h.isCombined.trans h'.isCombined, h.isPlain.trans h'.isPlain,
    h.isDecorated.trans h'.isDecorated⟩

/-- The parts of a combination make out its kind. -/
theorem SameKind.combo {lead rest lead' rest' : Strategy γ} (hlead : lead.SameKind lead')
    (hrest : rest.SameKind rest') : (combo lead rest).SameKind (combo lead' rest') :=
  ⟨hrest.isFair, rfl, congrArg₂ (· && ·) hlead.isPlain hrest.isPlain, rfl⟩

/-- The strategy inside makes out the kind of a decorated one. -/
theorem SameKind.liveness {inner inner' : Strategy γ} (h : inner.SameKind inner') :
    (liveness inner).SameKind (liveness inner') :=
  ⟨h.isFair, h.isCombined, rfl, h.isPlain⟩

/-- Searches hold choices in range, and the rest of a combination waits for the bound of its
lead. -/
def WellFormed : Strategy γ → Prop
  | depthFirst s => s.odometer.InRange
  | dpor s => s.InRange
  | combo lead rest =>
    lead.WellFormed ∧ rest.WellFormed ∧ (lead.atBound = false → rest.steps = 0)
  | liveness inner => inner.WellFormed
  | _ => True

/-- A strategy that stands on its own is at its bound when its clock is. -/
theorem atBound_eq_of_not_combined {s : Strategy γ} (h : s.isCombined = false) :
    s.atBound = s.clock.atBound := by
  induction s with
  | combo => cases h
  | liveness inner ih => exact ih h
  | _ => rfl

/-- At its bound a strategy has taken at least as many steps as its bound allows, and a combination
has taken more. -/
theorem bound_le_steps {s : Strategy γ} (hs : s.WellFormed) (h : s.atBound = true) :
    0 < s.maxSteps ∧ s.maxSteps ≤ s.steps ∧ (s.isCombined = true → s.maxSteps < s.steps) := by
  induction s with
  | combo lead rest ihLead ihRest =>
    obtain ⟨hlead, hrest, hwaits⟩ := hs
    obtain ⟨hpos, hle, -⟩ := ihRest hrest h
    have hdone : lead.atBound = true := by
      by_contra hnot
      have hzero := hwaits (Bool.eq_false_iff.mpr hnot)
      omega
    obtain ⟨hleadPos, hleadLe, -⟩ := ihLead hlead hdone
    have hsteps : (combo lead rest).steps = lead.steps + rest.steps := by
      rw [steps, if_pos hdone]
    have hmax : (combo lead rest).maxSteps = rest.maxSteps := rfl
    rw [hsteps, hmax]
    exact ⟨hpos, by omega, fun _ => by omega⟩
  | liveness inner ih => exact ih hs h
  | _ =>
    obtain ⟨hpos, hle⟩ := Clock.atBound_iff.mp ((atBound_eq_of_not_combined rfl).symm.trans h)
    exact ⟨hpos, hle, fun hcombined => by cases hcombined⟩

/-! ### Answering -/

/-- A strategy has answered a query of the running operation: the answer is a possible one, there
is none only for a reason, and the answer is counted. -/
structure Answered (query : Query) (before : Strategy γ) (answer : Option query.Answer)
    (after : Strategy γ) (monitors : Monitors) : Prop where
  mem : ∀ value, answer = some value → value ∈ query.alternatives
  none : answer = none →
    query.alternatives = [] ∨ after.takeFault.1.isSome ∨ monitors.violation.isSome
  clock : after.clock = before.clock.tick answer.isSome
  wellFormed : after.WellFormed
  sameKind : after.SameKind before

/-- A strategy without faults of its own that answers faithfully has answered. -/
theorem Answered.of_faithful {query : Query} {before after : Strategy γ}
    {answer : Option query.Answer} {monitors : Monitors}
    (h : query.Answered before.clock answer after.clock) (hafter : after.WellFormed)
    (hkind : after.SameKind before) : Answered query before answer after monitors where
  mem := h.mem
  none hnone := .inl (h.none hnone)
  clock := h.clock
  wellFormed := hafter
  sameKind := hkind

/-- A combination has a fault if one of its parts has one. -/
theorem isSome_takeFault_combo {lead rest : Strategy γ} :
    (combo lead rest).takeFault.1.isSome =
      (lead.takeFault.1.isSome || rest.takeFault.1.isSome) := by
  rw [takeFault]
  split
  · next hfault => rw [hfault, Option.isSome_some, Bool.true_or]
  · next hnone => rw [hnone, Option.isSome_none, Bool.false_or]

/-- A combination whose rest has answered has answered. -/
theorem Answered.combo_rest {query : Query} {lead rest after : Strategy γ}
    {answer : Option query.Answer} {monitors : Monitors}
    (h : Answered query rest answer after monitors) (hlead : lead.WellFormed)
    (hdone : lead.atBound = true) :
    Answered query (combo lead rest) answer (combo lead after) monitors where
  mem := h.mem
  none hnone := (h.none hnone).imp_right <| .imp_left fun hfault => by
    rw [isSome_takeFault_combo, hfault, Bool.or_true]
  clock := by
    have hclock := h.clock
    simp only [Strategy.clock, Clock.tick, Clock.mk.injEq, steps, hdone, if_true, maxSteps]
      at hclock ⊢
    omega
  wellFormed := ⟨hlead, h.wellFormed, fun hnot => by cases hdone.symm.trans hnot⟩
  sameKind := .combo (.refl lead) h.sameKind

/-- A combination whose lead has answered has answered, if the rest has not begun. -/
theorem Answered.combo_lead {query : Query} {lead rest after : Strategy γ}
    {answer : Option query.Answer} {monitors : Monitors}
    (h : Answered query lead answer after monitors) (hrest : rest.WellFormed)
    (hopen : lead.atBound = false) (hzero : rest.steps = 0) :
    Answered query (combo lead rest) answer (combo after rest) monitors where
  mem := h.mem
  none hnone := (h.none hnone).imp_right <| .imp_left fun hfault => by
    rw [isSome_takeFault_combo, hfault, Bool.true_or]
  clock := by
    have hclock := h.clock
    -- The answer may have brought the lead to its bound, where the steps of the rest are added.
    have hsteps : (combo after rest).steps = after.steps := by rw [steps, hzero, Nat.add_zero, ite_self]
    simp only [Strategy.clock, Clock.tick, Clock.mk.injEq, hsteps, maxSteps] at hclock ⊢
    refine ⟨hclock.1.trans ?_, trivial⟩
    rw [steps, hopen, if_neg Bool.false_ne_true]
  wellFormed := ⟨h.wellFormed, hrest, fun _ => hzero⟩
  sameKind := h.sameKind.combo (.refl rest)

/-- A strategy that watches the monitors has answered if the strategy inside has. -/
theorem Answered.liveness {query : Query} {inner after : Strategy γ} {answer : Option query.Answer}
    {monitors : Monitors} (h : Answered query inner answer after monitors) :
    Answered query (liveness inner) answer (liveness after) monitors :=
  ⟨h.mem, h.none, h.clock, h.wellFormed, h.sameKind.liveness⟩

/-- A strategy that a violation keeps from asking has answered nothing. -/
theorem Answered.halted {query : Query} {s : Strategy γ} {monitors : Monitors} (hs : s.WellFormed)
    (hviolated : monitors.violation.isSome = true) : Answered query s Option.none s monitors :=
  ⟨fun _ hsome => (by cases hsome), fun _ => .inr (.inr hviolated), rfl, hs, .refl s⟩

/-- A replay has answered. -/
theorem answered_replay [RandomSource γ] (current : Operation) (query : Query) (s : Replay)
    (monitors : Monitors) :
    Answered query (replay s : Strategy γ)
      (answer current query (replay s : Strategy γ) monitors).1
      (answer current query (replay s : Strategy γ) monitors).2.1 monitors := by
  rw [answer]
  rcases s.answer_cases query with ⟨value, hmem, heq⟩ | ⟨after, heq, hclock, hfair, hreason⟩
  · rw [heq]
    exact .of_faithful (.some hmem rfl) trivial ⟨rfl, rfl, rfl, rfl⟩
  · rw [heq]
    exact ⟨fun _ hsome => (by cases hsome), fun _ => hreason.imp_right .inl, hclock, trivial,
      ⟨hfair, rfl, rfl, rfl⟩⟩

/-- Every well-formed strategy answers as it should. -/
theorem answered [RandomSource γ] [BoundedRandomSource γ] {current : Operation} {query : Query}
    (hquery : query.IsAskedBy current) {s : Strategy γ} (hs : s.WellFormed)
    (monitors : Monitors) :
    Answered query s (answer current query s monitors).1 (answer current query s monitors).2.1
      (answer current query s monitors).2.2 := by
  induction s generalizing monitors with
  | random s => exact .of_faithful (s.answered query) trivial ⟨rfl, rfl, rfl, rfl⟩
  | sticky s => exact .of_faithful (s.answered hquery) trivial ⟨rfl, rfl, rfl, rfl⟩
  | delayBounding s => exact .of_faithful (s.answered hquery) trivial ⟨rfl, rfl, rfl, rfl⟩
  | priority s => exact .of_faithful (s.answered current query) trivial ⟨rfl, rfl, rfl, rfl⟩
  | depthFirst s =>
    obtain ⟨hanswered, hkept⟩ := s.answered query hs
    exact .of_faithful hanswered hkept ⟨rfl, rfl, rfl, rfl⟩
  | dpor s =>
    obtain ⟨hanswered, hkept⟩ := s.answered current query hs
    exact .of_faithful hanswered hkept ⟨rfl, rfl, rfl, rfl⟩
  | qLearning s => exact .of_faithful (s.answered current query) trivial ⟨rfl, rfl, rfl, rfl⟩
  | novelty s => exact .of_faithful (s.answered current query) trivial ⟨rfl, rfl, rfl, rfl⟩
  | replay s => exact answered_replay current query s monitors
  | combo lead rest ihLead ihRest =>
    obtain ⟨hlead, hrest, hwaits⟩ := hs
    rw [answer]
    by_cases hdone : lead.atBound = true
    · rw [if_pos hdone]
      exact (ihRest hrest monitors).combo_rest hlead hdone
    · have hopen := Bool.eq_false_iff.mpr hdone
      rw [if_neg hdone]
      exact (ihLead hlead monitors).combo_lead hrest hopen (hwaits hopen)
  | liveness inner ih =>
    rw [answer]
    dsimp only
    split
    · next hhalted =>
      rw [isHalted, Bool.and_eq_true] at hhalted
      exact .halted hs hhalted.2
    · exact (ih hs (checkMonitors inner monitors)).liveness

/-! ### Between queries -/

/-- A strategy stands where another one stood. -/
structure Keeps (before after : Strategy γ) : Prop where
  clock : after.clock = before.clock
  atBound : after.atBound = before.atBound
  sameKind : after.SameKind before
  wellFormed : before.WellFormed → after.WellFormed

/-- Every strategy stands where it stands. -/
theorem Keeps.refl (s : Strategy γ) : Keeps s s :=
  ⟨rfl, rfl, .refl s, id⟩

/-- A combination stands where its parts stand. -/
theorem Keeps.combo {lead rest lead' rest' : Strategy γ} (hlead : Keeps lead lead')
    (hrest : Keeps rest rest') : Keeps (combo lead rest) (combo lead' rest') := by
  have hleadClock := hlead.clock
  have hrestClock := hrest.clock
  simp only [Strategy.clock, Clock.mk.injEq] at hleadClock hrestClock
  refine ⟨?_, hrest.atBound, hlead.sameKind.combo hrest.sameKind, fun hparts =>
    ⟨hlead.wellFormed hparts.1, hrest.wellFormed hparts.2.1, ?_⟩⟩
  · simp only [Strategy.clock, steps, maxSteps, hlead.atBound, hleadClock.1, hrestClock.1,
      hrestClock.2]
  · rw [hlead.atBound, hrestClock.1]
    exact hparts.2.2

/-- Telling a strategy of a bug leaves it where it is. -/
theorem keeps_notifyBug (s : Strategy γ) : Keeps s s.notifyBug := by
  induction s with
  | combo lead rest ihLead ihRest => exact ihLead.combo ihRest
  | liveness inner ih => exact ⟨ih.clock, ih.atBound, ih.sameKind.liveness, ih.wellFormed⟩
  | qLearning s => exact ⟨rfl, rfl, ⟨rfl, rfl, rfl, rfl⟩, fun _ => trivial⟩
  | _ => exact Keeps.refl _

/-- Taking a fault leaves a strategy where it is. -/
theorem keeps_takeFault (s : Strategy γ) : Keeps s s.takeFault.2 := by
  induction s with
  | replay s => exact ⟨rfl, rfl, ⟨rfl, rfl, rfl, rfl⟩, fun _ => trivial⟩
  | combo lead rest ihLead ihRest =>
    rw [takeFault]
    split
    · next fault taken htaken =>
      rw [htaken] at ihLead
      exact ihLead.combo (.refl rest)
    · next taken htaken =>
      rw [htaken] at ihLead
      exact ihLead.combo ihRest
  | liveness inner ih => exact ⟨ih.clock, ih.atBound, ih.sameKind.liveness, ih.wellFormed⟩
  | _ => exact Keeps.refl _

/-- A strategy begins an iteration with the bound and of the kind of another one. -/
structure Restarts (before after : Strategy γ) : Prop where
  clock : after.clock = before.clock.restart
  sameKind : after.SameKind before
  wellFormed : before.WellFormed → after.WellFormed

/-- A combination begins an iteration if its parts do. -/
theorem Restarts.combo {lead rest lead' rest' : Strategy γ} (hlead : Restarts lead lead')
    (hrest : Restarts rest rest') : Restarts (combo lead rest) (combo lead' rest') := by
  have hleadClock := hlead.clock
  have hrestClock := hrest.clock
  simp only [Strategy.clock, Clock.restart, Clock.mk.injEq] at hleadClock hrestClock
  refine ⟨?_, hlead.sameKind.combo hrest.sameKind, fun hparts =>
    ⟨hlead.wellFormed hparts.1, hrest.wellFormed hparts.2.1, fun _ => hrestClock.1⟩⟩
  simp only [Strategy.clock, steps, maxSteps, hleadClock.1, hrestClock.1, hrestClock.2,
    Clock.restart, Nat.add_zero, ite_self]

/-- A decorated strategy begins an iteration if the strategy inside does. -/
theorem Restarts.liveness {inner inner' : Strategy γ} (h : Restarts inner inner') :
    Restarts (liveness inner) (liveness inner') :=
  ⟨h.clock, h.sameKind.liveness, h.wellFormed⟩

/-- Preparing begins an iteration. -/
theorem restarts_prepare [RandomSource γ] {s : Strategy γ} (hs : s.WellFormed) : Restarts s s.prepare.2 := by
  induction s with
  | depthFirst s =>
    obtain ⟨hkept, hclock⟩ := DepthFirst.prepare_spec hs
    exact ⟨hclock, ⟨rfl, rfl, rfl, rfl⟩, fun _ => hkept⟩
  | dpor s =>
    obtain ⟨hkept, hclock⟩ := Dpor.prepare_spec hs
    exact ⟨hclock, ⟨rfl, rfl, rfl, rfl⟩, fun _ => hkept⟩
  | delayBounding s => exact ⟨s.clock_prepare, ⟨rfl, rfl, rfl, rfl⟩, fun _ => trivial⟩
  | qLearning s => exact ⟨s.clock_prepare, ⟨rfl, rfl, rfl, rfl⟩, fun _ => trivial⟩
  | novelty s => exact ⟨s.clock_prepare, ⟨rfl, rfl, rfl, rfl⟩, fun _ => trivial⟩
  | combo lead rest ihLead ihRest => exact (ihLead hs.1).combo (ihRest hs.2.1)
  | liveness inner ih => exact (ih hs).liveness
  | random s => exact ⟨rfl, ⟨rfl, rfl, rfl, rfl⟩, fun _ => trivial⟩
  | sticky s => exact ⟨rfl, ⟨rfl, rfl, rfl, rfl⟩, fun _ => trivial⟩
  | priority s => exact ⟨rfl, ⟨rfl, rfl, rfl, rfl⟩, fun _ => trivial⟩
  | replay s => exact ⟨rfl, ⟨rfl, rfl, rfl, rfl⟩, fun _ => trivial⟩

/-- Forgetting the iteration begins one. -/
theorem restarts_reset (s : Strategy γ) : Restarts s s.reset := by
  induction s with
  | depthFirst s => exact ⟨rfl, ⟨rfl, rfl, rfl, rfl⟩, fun _ => Odometer.inRange_empty⟩
  | dpor s =>
    exact ⟨rfl, ⟨rfl, rfl, rfl, rfl⟩, fun _ =>
      ⟨Odometer.inRange_empty, fun _ hframe => absurd hframe List.not_mem_nil⟩⟩
  | combo lead rest ihLead ihRest => exact ihLead.combo ihRest
  | liveness inner ih => exact ih.liveness
  | _ => exact ⟨rfl, ⟨rfl, rfl, rfl, rfl⟩, fun _ => trivial⟩

end Strategy

/-! ### Strategies that are built -/

/-- Whether a selection runs one strategy after another. -/
def Selection.isCombined : Selection → Bool
  | .fairPriority _ | .combo .. => true
  | _ => false

/-- Whether the selected strategy counts as fair. -/
def Selection.isFair : Selection → Bool
  | .delayBounding _ | .iterativeDelayBounding _ | .depthFirst | .dpor | .randomDpor => false
  | .combo _ rest => rest.isFair
  | _ => true

namespace Config

/-- A strategy that is built is as fair as it is selected, whatever it draws from. -/
theorem isFair_build [RandomSource γ] (config : Config) (source : UInt64 → γ)
    (selection : Selection) (seed : UInt64) :
    (config.build source selection seed).isFair = selection.isFair := by
  induction selection generalizing seed with
  | combo lead rest _ ihRest => rw [build, Strategy.isFair, ihRest, Selection.isFair]
  | fairPriority points => simp only [build, Strategy.isFair, Selection.isFair]
  | _ => rfl

/-- The step bound for fair or for unfair strategies. -/
def stepBound (config : Config) (isFair : Bool) : Nat :=
  if isFair then config.maxFairSteps else config.maxUnfairSteps

/-- A strategy that is built is well-formed, has taken no step and watches no monitors, and its bound
is the one for its fairness. -/
theorem build_spec [RandomSource γ] (config : Config) (source : UInt64 → γ) (selection : Selection)
    (seed : UInt64) :
    (config.build source selection seed).WellFormed ∧
      (config.build source selection seed).clock =
        ⟨0, config.stepBound (config.build source selection seed).isFair⟩ ∧
      (config.build source selection seed).isCombined = selection.isCombined ∧
      (config.build source selection seed).isPlain = true := by
  induction selection generalizing seed with
  | combo lead rest ihLead ihRest =>
    obtain ⟨hlead, hleadClock, -, hleadPlain⟩ := ihLead seed
    obtain ⟨hrest, hrestClock, -, hrestPlain⟩ := ihRest (restSeed seed)
    simp only [Strategy.clock, Clock.mk.injEq] at hleadClock hrestClock
    refine ⟨⟨hlead, hrest, fun _ => hrestClock.1⟩, ?_, rfl, ?_⟩
    · simp only [build, Strategy.clock, Strategy.steps, Strategy.maxSteps, Strategy.isFair,
        hleadClock.1, hrestClock.1, hrestClock.2, Nat.add_zero, ite_self]
    · rw [build, Strategy.isPlain, hleadPlain, hrestPlain, Bool.and_self]
  | fairPriority points =>
    refine ⟨⟨trivial, trivial, fun _ => rfl⟩, ?_, rfl, rfl⟩
    simp [build, Strategy.clock, Strategy.steps, Strategy.maxSteps, Strategy.isFair, stepBound,
      PrioritySchedule.ofSource, RandomWalk.ofSource]
  | depthFirst => exact ⟨Odometer.inRange_empty, rfl, rfl, rfl⟩
  | dpor =>
    exact ⟨⟨Odometer.inRange_empty, fun _ hframe => absurd hframe List.not_mem_nil⟩, rfl, rfl, rfl⟩
  | randomDpor =>
    exact ⟨⟨Odometer.inRange_empty, fun _ hframe => absurd hframe List.not_mem_nil⟩, rfl, rfl, rfl⟩
  | _ => exact ⟨trivial, rfl, rfl, rfl⟩

end Config

namespace Strategy

variable [RandomSource γ]

/-- The strategies of testing runs: built from a configuration or for a replay, possibly watching
the monitors, and then asked, told of bugs and moved on. -/
inductive Reachable : Strategy γ → Prop where
  | built (config : Config) (source : UInt64 → γ) (selection : Selection) (seed : UInt64) :
      Reachable (config.build source selection seed)
  | replaying (trace : Trace) (maxSteps : Nat) (isFair : Bool) :
      Reachable (.replay { trace, maxSteps, isFair })
  | liveness {inner : Strategy γ} (h : Reachable inner) : Reachable (.liveness inner)
  | answer {s : Strategy γ} {current : Operation} {query : Query} (h : Reachable s)
      (hquery : query.IsAskedBy current) (monitors : Monitors) :
      Reachable (s.answer current query monitors).2.1
  | takeFault {s : Strategy γ} (h : Reachable s) : Reachable s.takeFault.2
  | notifyBug {s : Strategy γ} (h : Reachable s) : Reachable s.notifyBug
  | prepare {s : Strategy γ} (h : Reachable s) : Reachable s.prepare.2
  | reset {s : Strategy γ} (h : Reachable s) : Reachable s.reset

/-- The strategies of testing runs are well-formed. -/
theorem Reachable.wellFormed [BoundedRandomSource γ] {s : Strategy γ} (h : s.Reachable) :
    s.WellFormed := by
  induction h with
  | built config source selection seed => exact (config.build_spec source selection seed).1
  | replaying => trivial
  | liveness _ ih => exact ih
  | answer _ hquery monitors ih => exact (answered hquery ih monitors).wellFormed
  | takeFault _ ih => exact (keeps_takeFault _).wellFormed ih
  | notifyBug _ ih => exact (keeps_notifyBug _).wellFormed ih
  | prepare _ ih => exact (restarts_prepare ih).wellFormed ih
  | reset _ ih => exact (restarts_reset _).wellFormed ih

end Strategy

end ScheduleExplorer
