import ScheduleExplorer.Proofs.Random.Lawful
import ScheduleExplorer.Proofs.Strategy.Watching

/-!
# Promises of composed strategies

A strategy may be made up of new strategies of every kind, with combinations and decorators in any
order, and then be asked about any tables, told of bugs, moved on and reset, in whatever order. What
it promises all the time: an answer is a possible one, there is none only for a reason that can be
named, and the steps are the answers since the iteration began.

The reasons are that nothing is enabled, that a replay somewhere inside has diverged, or that a
decorator somewhere inside watches monitors of which one is violated.
-/

namespace ScheduleExplorer

namespace Strategy

variable {γ : Type}

/-! ### Parts -/

/-- A strategy is another one, or it stands somewhere inside it. -/
inductive IsPart (part : Strategy γ) : Strategy γ → Prop where
  | self : IsPart part part
  | lead {lead rest : Strategy γ} (h : IsPart part lead) : IsPart part (combo lead rest)
  | rest {lead rest : Strategy γ} (h : IsPart part rest) : IsPart part (combo lead rest)
  | inner {inner : Strategy γ} (h : IsPart part inner) : IsPart part (liveness inner)

/-- A replay inside has diverged, and its fault is not taken yet. -/
def HasDiverged (s : Strategy γ) : Prop :=
  ∃ r : Replay, IsPart (.replay r) s ∧ r.fault.isSome = true

/-- A decorator inside watches the monitors. -/
def IsWatching (s : Strategy γ) : Prop :=
  ∃ inner, IsPart (.liveness inner) s

/-- A fault that can be taken is the divergence of a replay. -/
theorem hasDiverged_of_takeFault {s : Strategy γ} (h : s.takeFault.1.isSome = true) :
    s.HasDiverged := by
  induction s with
  | replay r => exact ⟨r, .self, h⟩
  | combo lead rest ihLead ihRest =>
    rw [takeFault] at h
    split at h
    · next hlead =>
      obtain ⟨r, hr, hfault⟩ := ihLead (by rw [hlead]; rfl)
      exact ⟨r, .lead hr, hfault⟩
    · obtain ⟨r, hr, hfault⟩ := ihRest h
      exact ⟨r, .rest hr, hfault⟩
  | liveness inner ih =>
    obtain ⟨r, hr, hfault⟩ := ih h
    exact ⟨r, .inner hr, hfault⟩
  | _ => cases h

/-- A strategy without a decorator inside is plain. -/
theorem isWatching_of_not_isPlain {s : Strategy γ} (h : s.isPlain = false) : s.IsWatching := by
  induction s with
  | combo lead rest ihLead ihRest =>
    rw [isPlain, Bool.and_eq_false_iff] at h
    rcases h with hlead | hrest
    · obtain ⟨inner, hinner⟩ := ihLead hlead
      exact ⟨inner, .lead hinner⟩
    · obtain ⟨inner, hinner⟩ := ihRest hrest
      exact ⟨inner, .rest hinner⟩
  | liveness inner => exact ⟨inner, .self⟩
  | _ => cases h

/-- Why a strategy may have no answer although there is a possible one. -/
def IsExcused (s : Strategy γ) (monitors : Monitors) : Prop :=
  s.HasDiverged ∨ (s.IsWatching ∧ monitors.violation.isSome = true)

variable [RandomSource γ]

/-- What a plain strategy answers has nothing to do with the monitors. -/
theorem answer_of_isPlain {s : Strategy γ} (h : s.isPlain = true) (current : Operation)
    (query : Query) (monitors other : Monitors) :
    (answer current query s monitors).1 = (answer current query s other).1 ∧
      (answer current query s monitors).2.1 = (answer current query s other).2.1 := by
  induction s with
  | combo lead rest ihLead ihRest =>
    rw [isPlain, Bool.and_eq_true] at h
    rw [answer, answer]
    split
    · obtain ⟨hvalue, hafter⟩ := ihRest h.2
      exact ⟨hvalue, congrArg (combo lead) hafter⟩
    · obtain ⟨hvalue, hafter⟩ := ihLead h.1
      exact ⟨hvalue, congrArg (combo · rest) hafter⟩
  | liveness => cases h
  | _ => exact ⟨rfl, rfl⟩

/-- A well-formed strategy that does not answer is excused, unless there is no possible answer. -/
theorem excused_of_answer_eq_none [BoundedRandomSource γ] {current : Operation} {query : Query}
    (hquery : query.IsAskedBy current) {s : Strategy γ} (hs : s.WellFormed) {monitors : Monitors}
    (h : (answer current query s monitors).1 = none) :
    query.alternatives = [] ∨
      (answer current query s monitors).2.1.IsExcused (answer current query s monitors).2.2 := by
  have hanswered := answered hquery hs monitors
  cases hplain : s.isPlain with
  | false =>
    have hafter := hanswered.sameKind.isPlain.trans hplain
    exact (hanswered.none h).imp_right
      (Or.imp hasDiverged_of_takeFault fun hviolation => ⟨isWatching_of_not_isPlain hafter, hviolation⟩)
  | true =>
    -- Without a decorator the answer would be the same for monitors without a violation.
    obtain ⟨hsame, hafter⟩ := answer_of_isPlain hplain current query monitors {}
    have hclean := (answered hquery hs {}).none (hsame ▸ h)
    rw [monitors_answer hplain, ← hafter] at hclean
    refine hclean.imp_right fun hreason => .inl (hasDiverged_of_takeFault ?_)
    exact hreason.resolve_right fun hviolation => by cases hviolation

/-! ### Strategies that are made and used -/

/-- The strategies that are made: new ones of every kind, and the combinations and decorators of
such strategies. -/
inductive IsNew : Strategy γ → Prop where
  | random (source : γ) (maxSteps : Nat) : IsNew (.random (.ofSource source maxSteps))
  | sticky (source : γ) (maxSteps coinFlips : Nat) :
      IsNew (.sticky { walk := .ofSource source maxSteps, coinFlips })
  | delayBounding (source : γ) (maxSteps maxDelays : Nat) (isIterative : Bool)
      (level : AbstractionLevel) :
      IsNew (.delayBounding (.ofSource source maxSteps maxDelays isIterative level))
  | priority (source : γ) (maxSteps maxChangePoints : Nat) :
      IsNew (.priority (.ofSource source maxSteps maxChangePoints))
  | depthFirst (maxSteps : Nat) : IsNew (.depthFirst { maxSteps })
  | dpor (maxSteps : Nat) : IsNew (.dpor { maxSteps })
  | randomDpor (source : γ) (maxSteps limit : Nat) :
      IsNew (.dpor (.ofSource source maxSteps limit))
  | qLearning (source : γ) (maxSteps : Nat) (level : AbstractionLevel) :
      IsNew (.qLearning (.ofSource source maxSteps level))
  | novelty (source : γ) (maxSteps : Nat) (level : AbstractionLevel) :
      IsNew (.novelty (.ofSource source maxSteps level))
  | replay (trace : Trace) (maxSteps : Nat) (isFair : Bool) :
      IsNew (.replay { trace, maxSteps, isFair })
  | combo {lead rest : Strategy γ} (hlead : IsNew lead) (hrest : IsNew rest) :
      IsNew (.combo lead rest)
  | liveness {inner : Strategy γ} (h : IsNew inner) : IsNew (.liveness inner)

/-- The strategies that new ones become when they are used in whatever order, each with the number
of answers since the iteration began. The monitors may be others at every query. -/
inductive Reached : Nat → Strategy γ → Prop where
  | new {s : Strategy γ} (h : s.IsNew) : Reached 0 s
  | answer {taken : Nat} {s : Strategy γ} (h : Reached taken s) {current : Operation}
      {query : Query} (hquery : query.IsAskedBy current) (monitors : Monitors) :
      Reached (taken + (s.answer current query monitors).1.isSome.toNat)
        (s.answer current query monitors).2.1
  | takeFault {taken : Nat} {s : Strategy γ} (h : Reached taken s) : Reached taken s.takeFault.2
  | notifyBug {taken : Nat} {s : Strategy γ} (h : Reached taken s) : Reached taken s.notifyBug
  | prepare {taken : Nat} {s : Strategy γ} (h : Reached taken s) : Reached 0 s.prepare.2
  | reset {taken : Nat} {s : Strategy γ} (h : Reached taken s) : Reached 0 s.reset

omit [RandomSource γ] in
/-- Where both parts of a combination stand at their beginning, it stands at its beginning. -/
theorem steps_combo_eq_zero {lead rest : Strategy γ} (hlead : lead.steps = 0)
    (hrest : rest.steps = 0) : (combo lead rest).steps = 0 := by
  rw [steps, hlead, hrest, ite_self]

/-- A new strategy is well-formed and has taken no step. -/
theorem IsNew.atStart {s : Strategy γ} (h : s.IsNew) : s.WellFormed ∧ s.steps = 0 := by
  induction h with
  | depthFirst maxSteps => exact ⟨Odometer.inRange_empty, rfl⟩
  | dpor maxSteps =>
    exact ⟨⟨Odometer.inRange_empty, fun _ hframe => absurd hframe List.not_mem_nil⟩, rfl⟩
  | randomDpor source maxSteps limit =>
    exact ⟨⟨Odometer.inRange_empty, fun _ hframe => absurd hframe List.not_mem_nil⟩, rfl⟩
  | combo _ _ ihLead ihRest =>
    exact ⟨⟨ihLead.1, ihRest.1, fun _ => ihRest.2⟩, steps_combo_eq_zero ihLead.2 ihRest.2⟩
  | liveness _ ih => exact ih
  | _ => exact ⟨trivial, rfl⟩

/-- A strategy stays well-formed however it is used, and its steps are the answers that are
counted. -/
theorem Reached.counts [BoundedRandomSource γ] {taken : Nat} {s : Strategy γ}
    (h : Reached taken s) : s.WellFormed ∧ s.steps = taken := by
  induction h with
  | new h => exact h.atStart
  | @answer taken s _ current query hquery monitors ih =>
    have hanswered := answered hquery ih.1 monitors
    have hsteps : (s.answer current query monitors).2.1.steps =
        s.steps + (s.answer current query monitors).1.isSome.toNat :=
      congrArg Clock.steps hanswered.clock
    exact ⟨hanswered.wellFormed, hsteps.trans (by rw [ih.2])⟩
  | @takeFault taken s _ ih =>
    have hkept := keeps_takeFault s
    exact ⟨hkept.wellFormed ih.1, (congrArg Clock.steps hkept.clock).trans ih.2⟩
  | @notifyBug taken s _ ih =>
    have hkept := keeps_notifyBug s
    exact ⟨hkept.wellFormed ih.1, (congrArg Clock.steps hkept.clock).trans ih.2⟩
  | prepare _ ih =>
    have hrestarted := restarts_prepare ih.1
    exact ⟨hrestarted.wellFormed ih.1, congrArg Clock.steps hrestarted.clock⟩
  | @reset _ s _ ih =>
    have hrestarted := restarts_reset s
    exact ⟨hrestarted.wellFormed ih.1, congrArg Clock.steps hrestarted.clock⟩

/-! ### What they promise -/

/-- What a strategy with a number of answers promises whatever it is asked next. -/
structure Promises (s : Strategy γ) (taken : Nat) : Prop where
  steps : s.steps = taken
  /-- The turn is given to an enabled operation of the table. -/
  turn : ∀ (ops : List Operation) (current : Operation) (monitors : Monitors) (id : OperationId),
    current ∈ ops → (ops.map Operation.id).Nodup →
    (s.answer current (.operation ops) monitors).1 = some id →
    ∃ op ∈ ops, op.id = id ∧ op.isEnabled = true
  noTurn : ∀ (ops : List Operation) (current : Operation) (monitors : Monitors),
    current ∈ ops → (ops.map Operation.id).Nodup →
    (s.answer current (.operation ops) monitors).1 = none →
    (∀ op ∈ ops, op.isEnabled = false) ∨
      (s.answer current (.operation ops) monitors).2.1.IsExcused
        (s.answer current (.operation ops) monitors).2.2
  integer : ∀ (bound : Nat) (current : Operation) (monitors : Monitors) (value : Nat),
    (s.answer current (.integer bound) monitors).1 = some value → value < max bound 1
  noInteger : ∀ (bound : Nat) (current : Operation) (monitors : Monitors),
    (s.answer current (.integer bound) monitors).1 = none →
    (s.answer current (.integer bound) monitors).2.1.IsExcused
      (s.answer current (.integer bound) monitors).2.2
  noBoolean : ∀ (bound : Nat) (current : Operation) (monitors : Monitors),
    (s.answer current (.boolean bound) monitors).1 = none →
    (s.answer current (.boolean bound) monitors).2.1.IsExcused
      (s.answer current (.boolean bound) monitors).2.2

/-- A well-formed strategy that gives no value is excused. -/
theorem excused_of_noValue [BoundedRandomSource γ] {query : Query} (hquery : query.IsValue)
    {s : Strategy γ} (hs : s.WellFormed) {current : Operation} {monitors : Monitors}
    (h : (answer current query s monitors).1 = none) :
    (answer current query s monitors).2.1.IsExcused (answer current query s monitors).2.2 :=
  (excused_of_answer_eq_none (hquery.isAskedBy current) hs h).resolve_left
    hquery.alternatives_ne_nil

/-- However a strategy is composed and used, it keeps its promises: the turn goes to an enabled
operation and an integer is below its bound, an answer is missing only for a reason, and the steps
are the answers since the iteration began. -/
theorem promises_of_reached [BoundedRandomSource γ] {taken : Nat} {s : Strategy γ}
    (h : Reached taken s) : s.Promises taken := by
  obtain ⟨hs, hsteps⟩ := h.counts
  refine ⟨hsteps, fun ops current monitors id hcurrent hids hid => ?_,
    fun ops current monitors hcurrent hids hnone => ?_,
    fun bound current monitors value hvalue => ?_, fun bound current monitors hnone => ?_,
    fun bound current monitors hnone => ?_⟩
  · have hquery : (Query.operation ops).IsAskedBy current := ⟨hcurrent, hids⟩
    obtain ⟨op, hop, henabled, rfl⟩ :=
      Operation.mem_enabledIds.mp ((answered hquery hs monitors).mem id hid)
    exact ⟨op, hop, rfl, henabled⟩
  · have hquery : (Query.operation ops).IsAskedBy current := ⟨hcurrent, hids⟩
    refine (excused_of_answer_eq_none hquery hs hnone).imp_left fun hempty op hop => ?_
    by_contra henabled
    have hmem : op.id ∈ Operation.enabledIds ops :=
      Operation.mem_enabledIds.mpr ⟨op, hop, Bool.not_eq_false _ ▸ henabled, rfl⟩
    rw [show Operation.enabledIds ops = [] from hempty] at hmem
    exact List.not_mem_nil hmem
  · have hquery : (Query.integer bound).IsAskedBy current := trivial
    exact Query.mem_alternatives_integer.mp ((answered hquery hs monitors).mem value hvalue)
  · have hquery : (Query.integer bound).IsValue := trivial
    exact excused_of_noValue hquery hs hnone
  · have hquery : (Query.boolean bound).IsValue := trivial
    exact excused_of_noValue hquery hs hnone

/-- One decision depth first, and then the replay of an empty trace with the monitors watched. -/
def firstThenReplay : Strategy Tape :=
  .combo (.depthFirst { maxSteps := 1 })
    (.liveness (.replay { trace := {}, maxSteps := 0, isFair := true }))

/-- The combination after its only decision. -/
def handedOver : Strategy Tape :=
  (firstThenReplay.answer (Operation.new ⟨0⟩ "a") (.integer 3) {}).2.1

/-- After its only decision the combination has handed over to a replay with nothing to replay, which
refuses the query. -/
theorem promises_of_reached_handedOver : Reached 1 handedOver ∧ handedOver.Promises 1 ∧
    (handedOver.answer (Operation.new ⟨0⟩ "a") (.integer 3) {}).1 = none := by
  have hnew : firstThenReplay.IsNew := .combo (.depthFirst 1) (.liveness (.replay {} 0 true))
  have hquery : (Query.integer 3).IsAskedBy (Operation.new ⟨0⟩ "a") := trivial
  have hreached : Reached 1 handedOver := .answer (.new hnew) hquery {}
  exact ⟨hreached, promises_of_reached hreached, rfl⟩

end Strategy

end ScheduleExplorer
