import ScheduleExplorer.Dpor.PendingStep
import ScheduleExplorer.Proofs.Execution.Plays

/-!
# Independent steps

An operation whose body is parked at a primitive has announced what the primitive acts on. So two
operations whose pending steps are independent are apart (`Execution.Independent.apart`), and their
turns may be taken in either order (`Execution.turns_commute`), as long as the effects of a turn
beyond its announced step do not meet: both turns get to a scheduling point, the bodies share no
memory, at most one turn registers operations and at most one creates resources, and no turn ends a
join at which the other begins. For each of these conditions two bodies are given whose turns do not
commute without it (`Execution.Clash`).
-/

namespace ScheduleExplorer

variable {γ σ μ ν : Type}

/-! ### Announced steps -/

namespace PendingStep

/-- A visible step on an object, other than a join. -/
structure ActsOn (step : PendingStep) (object : Object) : Prop where
  visible : step.kind.isVisible = true
  notJoin : step.kind ≠ .join
  object : (step.target, step.targetId) = object

/-- The task that such a step concerns. -/
theorem ActsOn.tasks_eq {step : PendingStep} {object : Object} (h : step.ActsOn object) :
    step.tasks = .ofList [⟨step.targetId⟩] := by
  rw [tasks, decide_eq_false h.notJoin, Bool.false_and, if_neg Bool.false_ne_true]

/-- Steps on the same object are dependent. -/
theorem ActsOn.isDependent {step other : PendingStep} {object : Object} (h : step.ActsOn object)
    (hother : other.ActsOn object) : step.isDependent other = true := by
  obtain ⟨htarget, hid⟩ := Prod.mk.inj (h.object.trans hother.object.symm)
  rw [PendingStep.isDependent, h.visible, hother.visible, decide_eq_true htarget, Bool.true_and,
    Bool.true_and, Bool.true_and]
  split
  · rw [h.tasks_eq, hother.tasks_eq, hid]
    exact OpSet.intersects_iff.mpr ⟨⟨other.targetId⟩, by simp, by simp⟩
  · exact decide_eq_true hid

end PendingStep

/-- The announced step of an operation is the primitive at which its body is parked. -/
def Slot.IsAnnounced (id : OperationId) (slot : Slot σ) : Prop :=
  ∀ primitive next object, slot.stage = .parked primitive next →
    primitive.object? id = some object → (PendingStep.ofOperation slot.operation).ActsOn object

/-- A primitive that acts on something announces this. -/
theorem Primitive.actsOn_announce {primitive : Primitive σ} {id : OperationId} {object : Object}
    (hobject : primitive.object? id = some object) (op : Operation) :
    (PendingStep.ofOperation (primitive.announce id op)).ActsOn object := by
  cases primitive <;> cases hobject <;> exact ⟨rfl, (fun heq => by cases heq), rfl⟩

namespace Slot.IsAnnounced

variable {id : OperationId} {slot : Slot σ}

/-- A body that is parked at nothing has nothing to announce. -/
theorem of_stage (h : ∀ primitive next, slot.stage = .parked primitive next →
    primitive.object? id = none) : slot.IsAnnounced id := by
  intro primitive next object hstage hobject
  cases (h primitive next hstage).symm.trans hobject

/-- The announced step stays when neither it nor the body changes. -/
theorem of_same (h : slot.IsAnnounced id) {after : Slot σ} (hstage : after.stage = slot.stage)
    (hstep : PendingStep.ofOperation after.operation = PendingStep.ofOperation slot.operation) :
    after.IsAnnounced id := by
  intro primitive next object hparked hobject
  rw [hstep]
  exact h primitive next object (hstage ▸ hparked) hobject

/-- What is reached keeps the announced step. -/
theorem touch (h : slot.IsAnnounced id) (reach : Reach σ) : (reach.touch id slot).IsAnnounced id := by
  have hif {condition : Prop} [Decidable condition] {op changed : Operation}
      (hchanged : PendingStep.ofOperation changed = PendingStep.ofOperation op) :
      PendingStep.ofOperation (if condition then changed else op) = PendingStep.ofOperation op := by
    split
    · exact hchanged
    · rfl
  cases reach with
  | posts target envelope =>
    rw [Reach.touch]
    split
    · exact h.of_same rfl (hif rfl)
    · exact h
  | begins child body =>
    rw [Reach.touch]
    split
    · apply of_stage
      rintro _ _ ⟨⟩
      rfl
    · exact h
  | frees resource => exact h.of_same rfl (hif rfl)
  | wakes isCompleted => exact h.of_same rfl (hif rfl)
  | _ => exact h

/-- A body announces a primitive when it is parked there. -/
theorem apply (h : slot.IsAnnounced id) (move : Move σ) : (move.apply id slot).IsAnnounced id := by
  have hwait (wait : Operation → Operation)
      (hwait : ∀ op, PendingStep.ofOperation (wait op) = PendingStep.ofOperation op) :
      IsAnnounced id { slot with operation := wait slot.operation } := h.of_same rfl (hwait _)
  cases move with
  | parks primitive next =>
    rintro _ _ object ⟨⟩ hobject
    exact Primitive.actsOn_announce hobject slot.operation
  | awaits events =>
    refine hwait _ fun op => ?_
    rw [Operation.waitEvents]
    split <;> rfl
  | queues resource =>
    refine hwait _ fun op => ?_
    rw [Operation.waitResource]
    split <;> rfl
  | joins targets all next =>
    apply of_stage
    rintro _ _ ⟨⟩
    rfl
  | _ =>
    apply of_stage
    rintro _ _ ⟨⟩

end Slot.IsAnnounced

namespace Outlook

variable {o : Outlook σ μ}

/-- Every operation has announced the primitive at which its body is parked. -/
def IsAnnounced (o : Outlook σ μ) : Prop :=
  ∀ id slot, o.slots id = some slot → slot.IsAnnounced id

/-- What is reached keeps what is announced. -/
theorem IsAnnounced.apply (h : o.IsAnnounced) (reach : Reach σ) : (reach.apply o).IsAnnounced := by
  intro id slot hslot
  have htouched (hplace : reach.place o.size id (o.slots id) =
      (o.slots id).map fun slot => reach.touch id slot) : slot.IsAnnounced id := by
    obtain ⟨old, hold, rfl⟩ := Option.map_eq_some_iff.mp (hplace.symm.trans hslot)
    exact (h id old hold).touch reach
  cases reach with
  | enrolls name =>
    change (if id.index = o.size then some _ else o.slots id) = _ at hslot
    split at hslot
    · obtain rfl := Option.some.inj hslot
      apply Slot.IsAnnounced.of_stage
      rintro _ _ ⟨⟩
    · exact h id slot hslot
  | _ => exact htouched rfl

/-- What an operation does keeps what is announced. -/
theorem IsAnnounced.perform (h : o.IsAnnounced) (id : OperationId) (deed : Deed σ μ) :
    (o.perform id deed).IsAnnounced := by
  intro other slot hslot
  obtain ⟨old, hold, rfl⟩ := Option.map_eq_some_iff.mp hslot
  have hreached := h.apply deed.reach other old hold
  split
  · next hother =>
    subst hother
    exact hreached.apply deed.move
  · exact hreached

end Outlook

namespace Execution

section Turns

variable {program : Program σ μ} {ex : Execution γ σ μ} {journal : Journal σ}
  {p q : OperationId}

variable [RandomSource γ]

/-- The operations of a run have announced the primitives at which their bodies are parked. -/
theorem Recorded.isAnnounced (h : Recorded program ex journal)
    (hrunning : ex.iteration.isRunning = true) : ex.outlook.IsAnnounced := by
  induction h with
  | start strategy monitors coverage depthBoundIsBug =>
    intro id slot hslot
    obtain ⟨old, hold, rfl⟩ := Option.map_eq_some_iff.mp hslot
    have hstage := List.mem_singleton.mp (List.mem_of_getElem? (slot?_eq_some.mp hold).2.1)
    apply Slot.IsAnnounced.of_stage
    intro primitive next hparked
    cases hstage.symm.trans hparked
    rfl
  | step h hstep ih =>
    have hbefore := ih (isRunning_of_step hstep)
    obtain ⟨value, deed, -, hquiet, hpoint⟩ := exists_moves h.settled hstep hrunning
    cases hmove : deed.move.isPoint with
    | false =>
      rw [(hquiet hmove).1]
      exact hbefore.perform _ deed
    | true =>
      rw [(hpoint hmove).1]
      exact (hbefore.perform _ deed).apply _

omit [RandomSource γ] in
/-- An operation that is enabled stands beside any other that is. -/
theorem InOrder.beside {pending : OperationId → Option (Request σ)} {current : OperationId}
    (h : ex.InOrder pending current) (hsettled : ex.Settled) {op other : Operation}
    (hop : ex.iteration.operation? p = some op) (henabled : op.isEnabled = true)
    (hother : ex.iteration.operation? q = some other) (hotherEnabled : other.isEnabled = true) :
    ex.outlook.Beside p q := by
  refine ⟨fun id hid => ?_, ⟨(List.getElem?_eq_some_iff.mp hop).1, ?_⟩, ?_, ?_⟩
  · change (ex.slot? id).map _ = none
    rw [slot?, Iteration.operation?, List.getElem?_eq_none hid]
    rfl
  · obtain ⟨slot, hslot, rfl⟩ := hsettled.exists_slot hop
    refine ⟨slot.bare, ?_, Status.isEnabled_iff.mp henabled⟩
    change (ex.slot? p).map _ = _
    rw [hslot]
    rfl
  · intro primitive next hparked
    rw [stage?_outlook hsettled] at hparked
    exact h.orderly.known p primitive next hparked
  · intro child body next hparked
    rw [stage?_outlook hsettled] at hparked
    have hannounced := h.orderly.announced p child ⟨body, next, hparked⟩
    obtain ⟨new, hnew⟩ := hsettled.exists_operation? hannounced
    -- A body that has not begun belongs to an operation without a status.
    have hstatus {found : Operation} (hfound : ex.iteration.operation? child = some found) :
        found.status = .none := by
      have haccords := h.orderly.accords child found _ hfound hannounced
      generalize pending child = call at haccords
      cases haccords with
      | announced hstatus => exact hstatus
    have hne {id : OperationId} {found : Operation} (hfound : ex.iteration.operation? id = some found)
        (hfoundEnabled : found.isEnabled = true) : child ≠ id := by
      rintro rfl
      cases (hstatus hfound).symm.trans (Status.isEnabled_iff.mp hfoundEnabled)
    refine ⟨(List.getElem?_eq_some_iff.mp hnew).1, ⟨hne hop henabled, hne hother hotherEnabled⟩, ?_⟩
    rw [isCompleted_outlook hsettled, Iteration.isCompleted, hnew, Option.any_some, hstatus hnew]
    rfl

/-- In a run that goes on two different operations are enabled whose pending steps are independent. -/
structure Independent (program : Program σ μ) (ex : Execution γ σ μ) (p q : OperationId) : Prop where
  recorded : ∃ journal, Recorded program ex journal
  isRunning : ex.iteration.isRunning = true
  ne : p ≠ q
  operations : ∃ opP opQ : Operation,
    ex.iteration.operation? p = some opP ∧ ex.iteration.operation? q = some opQ ∧
      opP.isEnabled = true ∧ opQ.isEnabled = true ∧
        (PendingStep.ofOperation opP).isDependent (.ofOperation opQ) = false

namespace Independent

/-- Operations are independent in settled executions. -/
theorem settled (h : ex.Independent program p q) : ex.Settled := by
  obtain ⟨journal, hrecorded⟩ := h.recorded
  exact hrecorded.settled

/-- Independent operations are apart. -/
theorem apart (h : ex.Independent program p q) : ex.outlook.Apart p q := by
  obtain ⟨journal, hrecorded⟩ := h.recorded
  obtain ⟨opP, opQ, hp, hq, hpEnabled, hqEnabled, hfree⟩ := h.operations
  have hin := hrecorded.inOrder h.isRunning
  refine ⟨h.ne, hin.beside h.settled hp hpEnabled hq hqEnabled,
    hin.beside h.settled hq hqEnabled hp hpEnabled, ?_⟩
  intro first next second next' hfirst hsecond object hobject hobject'
  have hannounced {id : OperationId} {op : Operation} {primitive : Primitive σ} {next : σ}
      (hop : ex.iteration.operation? id = some op)
      (hparked : ex.outlook.stage? id = some (.parked primitive next))
      (hacts : primitive.object? id = some object) : (PendingStep.ofOperation op).ActsOn object := by
    obtain ⟨slot, hslot, rfl⟩ := h.settled.exists_slot hop
    have hbare : ex.outlook.slots id = some slot.bare := congrArg (Option.map Slot.bare) hslot
    rw [Outlook.stage?, hbare] at hparked
    exact hrecorded.isAnnounced h.isRunning id slot.bare hbare primitive next object
      (Option.some.inj hparked) hacts
  have hdependent := (hannounced hp hfirst hobject).isDependent (hannounced hq hsecond hobject')
  cases hfree.symm.trans hdependent

end Independent

omit [RandomSource γ] in
/-- The join at which an operation is parked is over in both of two outlooks if it is in both of the
executions. -/
theorem sameJoin_outlook {after : Execution γ σ μ} (h : ex.Settled) (hafter : after.Settled)
    (hjoin : ∀ targets all next, ex.stage? p = some (.parked (.join targets all) next) →
      after.isJoined targets all = ex.isJoined targets all) :
    Outlook.SameJoin p ex.outlook after.outlook := by
  intro targets all next hparked
  rw [stage?_outlook h] at hparked
  rw [isJoined_outlook h, isJoined_outlook hafter]
  exact hjoin targets all next hparked

omit [RandomSource γ] in
/-- An operation that is enabled in the outlook may go on. -/
theorem isEnabled_of_outlook (h : ex.outlook.HasEnabled p) : ex.isEnabled p = true := by
  obtain ⟨slot, hslot, henabled⟩ := h.enabled
  obtain ⟨old, hold, rfl⟩ := Option.map_eq_some_iff.mp hslot
  rw [isEnabled, (slot?_eq_some.mp hold).1, Option.any_some]
  exact Status.isEnabled_iff.mpr henabled

/-- Independent steps commute. Let two operations be independent, and let each, given the turn, get to
a scheduling point, with some values for its choices. If the bodies have nothing in common of what
their actions see of the memory, if not both turns register operations and not both create resources,
and if no turn ends the join at which the other begins, then the turns can be taken in either order,
with the same values, and what is seen after both is the same. None of the conditions can be left out
(`Clash`). -/
theorem turns_commute (h : ex.Independent program p q)
    {statesP statesQ : List (σ × Reply)} {valuesP valuesQ : List Decision}
    {afterP afterQ : Execution γ σ μ}
    (hplaysP : (ex.giveTurn p).Plays program statesP valuesP afterP)
    (hplaysQ : (ex.giveTurn q).Plays program statesQ valuesQ afterQ)
    {view : μ → ν} {seen : Program σ ν} (hview : program.SeenThrough view seen)
    (hseparates : seen.Separates p q statesP statesQ)
    (hspawns : afterP.iteration.operations.length = ex.iteration.operations.length ∨
      afterQ.iteration.operations.length = ex.iteration.operations.length)
    (hcreates : afterP.holders.length = ex.holders.length ∨
      afterQ.holders.length = ex.holders.length)
    (hjoinP : ∀ targets all next, ex.stage? p = some (.parked (.join targets all) next) →
      afterQ.isJoined targets all = ex.isJoined targets all)
    (hjoinQ : ∀ targets all next, ex.stage? q = some (.parked (.join targets all) next) →
      afterP.isJoined targets all = ex.isJoined targets all) :
    (afterP.examined.isEnabled q = true ∧ afterQ.examined.isEnabled p = true) ∧
      ∃ afterPQ afterQP : Execution γ σ μ,
        (afterP.examined.giveTurn q).Plays program statesQ valuesQ afterPQ ∧
        (afterQ.examined.giveTurn p).Plays program statesP valuesP afterQP ∧
        afterPQ.examined.outlook.see view = afterQP.examined.outlook.see view := by
  have hsettledP := hplaysP.settled (h.settled.giveTurn p)
  have hsettledQ := hplaysQ.settled (h.settled.giveTurn q)
  have hexaminedP : afterP.examined.Settled := hsettledP.of_iteration (.inr rfl)
  have hexaminedQ : afterQ.examined.Settled := hsettledQ.of_iteration (.inr rfl)
  obtain ⟨⟨henabledQ, henabledP⟩, oPQ, oQP, hthenQ, hthenP, hsame⟩ :=
    h.apart.exists_plays_of_separates hview hseparates (hplaysP.outlook (h.settled.giveTurn p))
      (hplaysQ.outlook (h.settled.giveTurn q)) hspawns hcreates
      (sameJoin_outlook h.settled hsettledQ hjoinP) (sameJoin_outlook h.settled hsettledP hjoinQ)
  rw [← outlook_examined hsettledP] at henabledQ hthenQ
  rw [← outlook_examined hsettledQ] at henabledP hthenP
  obtain ⟨afterPQ, hplaysPQ, hoPQ⟩ :=
    exists_plays hthenQ (hexaminedP.giveTurn q) hplaysP.isRunning rfl rfl
  obtain ⟨afterQP, hplaysQP, hoQP⟩ :=
    exists_plays hthenP (hexaminedQ.giveTurn p) hplaysQ.isRunning rfl rfl
  refine ⟨⟨isEnabled_of_outlook henabledQ, isEnabled_of_outlook henabledP⟩, afterPQ, afterQP,
    hplaysPQ, hplaysQP, ?_⟩
  rw [outlook_examined (hplaysPQ.settled (hexaminedP.giveTurn q)),
    outlook_examined (hplaysQP.settled (hexaminedQ.giveTurn p)), hoPQ, hoQP, hsame]

end Turns

/-! ### Turns that meet -/

/-- A body begins another one; then the two go on with actions of their own. Each notes its steps in
the memory. -/
def pair (note : OperationId → μ → μ) (memory : μ) (does : Nat → Reply → μ → Action Nat) :
    Program Nat μ where
  main := 0
  memory
  resume id state reply memory :=
    let action : Action Nat :=
      match state with
      | 0 => .call (.spawn "other" 3) 1
      | _ => does state reply memory
    (action, note id memory)
  hasher := some fun _ => {}

/-- Both bodies yield once, the first one from state 1 and the other one from state 3. -/
def yieldOnce : Nat → Action Nat
  | 1 => .call .yield 2
  | 3 => .call .yield 4
  | _ => .finish

/-- Two bodies that yield once, with a log of their steps. -/
def logged : Program Nat (List OperationId) :=
  pair List.cons [] fun state _ _ => yieldOnce state

/-- The program without the log. -/
def unlogged : Program Nat Unit :=
  pair (fun _ memory => memory) () fun state _ _ => yieldOnce state

/-- No action depends on the log. -/
theorem seenThrough_logged : logged.SeenThrough (fun _ => ()) unlogged := by
  intro id state reply log
  cases state <;> rfl

/-- Without the log the bodies have no memory in common. -/
theorem separates_unlogged (p q : OperationId) (ofP ofQ : List (Nat × Reply)) :
    unlogged.Separates p q ofP ofQ :=
  ⟨fun _ _ _ _ _ => rfl, fun _ _ _ _ _ => rfl, fun _ _ _ _ _ => rfl⟩

/-- An execution that follows a schedule. -/
def follow (program : Program σ μ) (schedule : List OperationId) (fuel : Nat) :
    Execution Tape σ μ :=
  let trace : Trace := ⟨(schedule.map Decision.operation).toArray⟩
  (start program { strategy := .replay { trace, maxSteps := 10, isFair := true } }).run program fuel

/-- What follows a schedule is a run. -/
theorem exists_recorded_follow (program : Program σ μ) (schedule : List OperationId) (fuel : Nat) :
    ∃ journal, Recorded program (follow program schedule fuel) journal := by
  rw [follow, ← fst_runRecorded program _ {} fuel]
  exact ⟨_, (Recorded.start _ {} {} false).run fuel⟩

/-- The end of one body and the beginning of the other one commute, up to the log. -/
theorem turns_commute_logged :
    (follow logged [⟨0⟩, ⟨0⟩] 4).Independent logged ⟨0⟩ ⟨1⟩ ∧
      ∃ statesP statesQ, ∃ afterP afterQ : Execution Tape Nat (List OperationId),
        ((follow logged [⟨0⟩, ⟨0⟩] 4).giveTurn ⟨0⟩).Plays logged statesP [] afterP ∧
        ((follow logged [⟨0⟩, ⟨0⟩] 4).giveTurn ⟨1⟩).Plays logged statesQ [] afterQ ∧
        (afterP.examined.isEnabled ⟨1⟩ = true ∧ afterQ.examined.isEnabled ⟨0⟩ = true) ∧
        ∃ afterPQ afterQP : Execution Tape Nat (List OperationId),
          (afterP.examined.giveTurn ⟨1⟩).Plays logged statesQ [] afterPQ ∧
          (afterQ.examined.giveTurn ⟨0⟩).Plays logged statesP [] afterQP ∧
          afterPQ.examined.outlook.see (fun _ => ()) = afterQP.examined.outlook.see fun _ => () := by
  have hindependent : (follow logged [⟨0⟩, ⟨0⟩] 4).Independent logged ⟨0⟩ ⟨1⟩ :=
    ⟨exists_recorded_follow .., rfl, by decide, _, _, rfl, rfl, rfl, rfl, rfl⟩
  have hstageP : (follow logged [⟨0⟩, ⟨0⟩] 4).stage? ⟨0⟩ = some (.parked .resume 2) := rfl
  have hstageQ : (follow logged [⟨0⟩, ⟨0⟩] 4).stage? ⟨1⟩ = some (.parked .start 3) := rfl
  obtain ⟨statesP, afterP, hplaysP, hspawns, hcreates⟩ :
      ∃ states, ∃ after : Execution Tape Nat (List OperationId),
        ((follow logged [⟨0⟩, ⟨0⟩] 4).giveTurn ⟨0⟩).Plays logged states [] after ∧
          after.iteration.operations.length =
            (follow logged [⟨0⟩, ⟨0⟩] 4).iteration.operations.length ∧
          after.holders.length = (follow logged [⟨0⟩, ⟨0⟩] 4).holders.length :=
    ⟨_, _, .quiet rfl (.point rfl), rfl, rfl⟩
  obtain ⟨statesQ, afterQ, hplaysQ⟩ :
      ∃ states, ∃ after : Execution Tape Nat (List OperationId),
        ((follow logged [⟨0⟩, ⟨0⟩] 4).giveTurn ⟨1⟩).Plays logged states [] after :=
    ⟨_, _, .quiet rfl (.point rfl)⟩
  refine ⟨hindependent, statesP, statesQ, afterP, afterQ, hplaysP, hplaysQ, ?_⟩
  refine turns_commute hindependent hplaysP hplaysQ seenThrough_logged
    (separates_unlogged ⟨0⟩ ⟨1⟩ _ _) (.inl hspawns) (.inl hcreates) ?_ ?_
  · intro targets all next hparked
    cases hstageP.symm.trans hparked
  · intro targets all next hparked
    cases hstageQ.symm.trans hparked

/-- Two operations take a turn each, one after the other, with given values for their choices. -/
def TakeTurns (program : Program σ μ) (ex : Execution γ σ μ) (p q : OperationId)
    (valuesP valuesQ : List Decision) (after : Execution γ σ μ) : Prop :=
  ∃ statesP statesQ between, (ex.giveTurn p).Plays program statesP valuesP between ∧
    (between.examined.giveTurn q).Plays program statesQ valuesQ after

/-- With some values for their choices two operations can take their turns in either order, and what
is seen after both is the same, the memory apart. -/
def Commute (program : Program σ μ) (ex : Execution γ σ μ) (p q : OperationId) : Prop :=
  ∃ (valuesP valuesQ : List Decision) (afterPQ afterQP : Execution γ σ μ),
    ex.TakeTurns program p q valuesP valuesQ afterPQ ∧
    ex.TakeTurns program q p valuesQ valuesP afterQP ∧
    afterPQ.examined.outlook.see (fun _ => ()) = afterQP.examined.outlook.see fun _ => ()

/-- Turns without choices have one outcome. -/
theorem TakeTurns.eq_of_no_choices {program : Program σ μ} {ex after other : Execution γ σ μ}
    {p q : OperationId} {valuesP valuesQ : List Decision}
    (h : ex.TakeTurns program p q [] [] after)
    (hother : ex.TakeTurns program p q valuesP valuesQ other) : other = after := by
  obtain ⟨_, _, between, hfirst, hsecond⟩ := h
  obtain ⟨_, _, between', hfirst', hsecond'⟩ := hother
  obtain rfl := hfirst.eq_of_no_choices rfl hfirst'
  exact hsecond.eq_of_no_choices rfl hsecond'

/-- Turns without choices do not commute if the two orders show an operation differently. -/
theorem not_commute_of_slots {program : Program σ μ} {ex afterPQ afterQP : Execution γ σ μ}
    {p q : OperationId} (hPQ : ex.TakeTurns program p q [] [] afterPQ)
    (hQP : ex.TakeTurns program q p [] [] afterQP) (id : OperationId) {α : Type}
    (look : Slot σ → α) (hdiffers : (afterPQ.examined.outlook.slots id).map look ≠
      (afterQP.examined.outlook.slots id).map look) : ¬ ex.Commute program p q := by
  rintro ⟨valuesP, valuesQ, otherPQ, otherQP, hPQ', hQP', hsame⟩
  obtain rfl := hPQ.eq_of_no_choices hPQ'
  obtain rfl := hQP.eq_of_no_choices hQP'
  have hslots := congrArg Outlook.slots hsame
  exact hdiffers (congrArg (Option.map look) (congrFun hslots id))

/-- What turns do beyond their announced steps that can meet. -/
inductive Clash where
  /-- The first body panics. -/
  | panics
  /-- The first body reads the log. -/
  | reads
  /-- Both bodies register an operation. -/
  | registers
  /-- Both bodies create a resource. -/
  | creates
  /-- The first body joins the other one, which ends. -/
  | joins
  /-- The first body sends a message, which carries the position of its send. -/
  | sends

namespace Clash

/-- The actions of the bodies. -/
def does (clash : Clash) (state : Nat) (reply : Reply) (log : List OperationId) : Action Nat :=
  match clash, state, reply with
  | panics, 2, _ => .raise "ended"
  | reads, 2, _ => if log.length = 2 then .finish else .call .yield 2
  | registers, 2, _ | registers, 3, _ => .call (.spawn "another" 4) 4
  | creates, 2, _ | creates, 3, _ => .call .createResource 5
  | creates, 5, .resource resource => .call (.acquire resource) 4
  | joins, 1, _ => .call (.join [⟨1⟩]) 2
  | sends, 1, _ => .call (.send ⟨1⟩ (Message.signal ⟨0⟩)) 2
  | _, _, _ => yieldOnce state

/-- Two bodies whose turns meet. -/
def program (clash : Clash) : Program Nat (List OperationId) :=
  pair List.cons [] clash.does

/-- The bodies are parked at independent steps. -/
def parked (clash : Clash) : Execution Tape Nat (List OperationId) :=
  match clash with
  | joins => follow clash.program [⟨0⟩, ⟨1⟩, ⟨0⟩] 6
  | _ => follow clash.program [⟨0⟩, ⟨0⟩] 4

/-- The parked steps do not depend on each other. -/
theorem independent_parked (clash : Clash) :
    clash.parked.Independent clash.program ⟨0⟩ ⟨1⟩ := by
  cases clash <;>
    exact ⟨exists_recorded_follow .., rfl, by decide, _, _, rfl, rfl, rfl, rfl, rfl⟩

/-- The panic ends the iteration, so the operation gets to no scheduling point. -/
theorem not_commute_panics : ¬ panics.parked.Commute panics.program ⟨0⟩ ⟨1⟩ := by
  rintro ⟨_, _, _, _, ⟨_, _, between, hplays, -⟩, -⟩
  obtain ⟨last, hquiet, kind, message, final, hbug⟩ :
      ∃ last : Execution Tape Nat (List OperationId),
        (panics.parked.giveTurn ⟨0⟩).turn? panics.program = some (.quiet last) ∧
          ∃ kind message final, last.turn? panics.program = some (.bug kind message final) :=
    ⟨_, rfl, _, _, _, rfl⟩
  cases hplays with
  | point h => cases hquiet.symm.trans h
  | choice h => cases hquiet.symm.trans h
  | quiet h rest =>
    cases hquiet.symm.trans h
    cases rest with
    | point h => cases hbug.symm.trans h
    | choice h => cases hbug.symm.trans h
    | quiet h => cases hbug.symm.trans h

/-- The log tells the first body whether the other one has come first. -/
theorem not_commute_reads : ¬ reads.parked.Commute reads.program ⟨0⟩ ⟨1⟩ := by
  refine not_commute_of_slots ⟨_, _, _, .quiet rfl (.point rfl), .quiet rfl (.point rfl)⟩
    ⟨_, _, _, .quiet rfl (.point rfl), .quiet rfl (.point rfl)⟩ ⟨0⟩ (·.operation.status) ?_
  decide

/-- The operation that registers first gets the smaller number. -/
theorem not_commute_registers : ¬ registers.parked.Commute registers.program ⟨0⟩ ⟨1⟩ := by
  refine not_commute_of_slots ⟨_, _, _, .quiet rfl (.point rfl), .quiet rfl (.point rfl)⟩
    ⟨_, _, _, .quiet rfl (.point rfl), .quiet rfl (.point rfl)⟩ ⟨0⟩ (·.operation.targetId) ?_
  decide

/-- The operation that creates a resource first gets the smaller number. -/
theorem not_commute_creates : ¬ creates.parked.Commute creates.program ⟨0⟩ ⟨1⟩ := by
  refine not_commute_of_slots
    ⟨_, _, _, .quiet rfl (.quiet rfl (.point rfl)), .quiet rfl (.quiet rfl (.point rfl))⟩
    ⟨_, _, _, .quiet rfl (.quiet rfl (.point rfl)), .quiet rfl (.quiet rfl (.point rfl))⟩ ⟨0⟩
    (·.operation.targetId) ?_
  decide

/-- A join that begins before the end of what it waits for waits. -/
theorem not_commute_joins : ¬ joins.parked.Commute joins.program ⟨0⟩ ⟨1⟩ := by
  refine not_commute_of_slots ⟨_, _, _, .point rfl, .quiet rfl (.point rfl)⟩
    ⟨_, _, _, .quiet rfl (.point rfl), .quiet rfl (.point rfl)⟩ ⟨0⟩ (·.operation.status) ?_
  decide

/-- An envelope carries the position of its send in the schedule: after the same two turns in the
other order it is another one. -/
theorem inboxes_sends_ne :
    (follow sends.program [⟨0⟩, ⟨0⟩, ⟨1⟩, ⟨1⟩] 8).inboxes ≠
      (follow sends.program [⟨0⟩, ⟨1⟩, ⟨0⟩, ⟨1⟩] 8).inboxes := by
  intro hsame
  have hsteps := congrArg (List.map (List.map Envelope.sendStep)) hsame
  revert hsteps
  decide

end Clash

/-- Independent steps need not commute if the turns meet: a panic ends the iteration, the bodies may
have memory in common, numbers are given out in order, and a join may find its end or wait for it. And
positions in the schedule differ. -/
theorem not_turns_commute :
    (∀ clash : Clash, clash.parked.Independent clash.program ⟨0⟩ ⟨1⟩) ∧
      ¬ Clash.panics.parked.Commute Clash.panics.program ⟨0⟩ ⟨1⟩ ∧
      ¬ Clash.reads.parked.Commute Clash.reads.program ⟨0⟩ ⟨1⟩ ∧
      ¬ Clash.registers.parked.Commute Clash.registers.program ⟨0⟩ ⟨1⟩ ∧
      ¬ Clash.creates.parked.Commute Clash.creates.program ⟨0⟩ ⟨1⟩ ∧
      ¬ Clash.joins.parked.Commute Clash.joins.program ⟨0⟩ ⟨1⟩ ∧
      (follow Clash.sends.program [⟨0⟩, ⟨0⟩, ⟨1⟩, ⟨1⟩] 8).inboxes ≠
        (follow Clash.sends.program [⟨0⟩, ⟨1⟩, ⟨0⟩, ⟨1⟩] 8).inboxes :=
  ⟨Clash.independent_parked, Clash.not_commute_panics, Clash.not_commute_reads,
    Clash.not_commute_registers, Clash.not_commute_creates, Clash.not_commute_joins,
    Clash.inboxes_sends_ne⟩

end Execution

end ScheduleExplorer
