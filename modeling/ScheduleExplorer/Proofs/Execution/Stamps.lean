import ScheduleExplorer.Proofs.Execution.Letters

/-!
# Stamps

A message is stamped with the turn in which it was sent, and an operation keeps the stamp of the
message that it has received last. A message that has woken its receiver is the one that the receiver
takes next, since it found no other. `Slot.Stamped` is the invariant that says so, and that different
messages have different stamps. So the operation has the stamp of a message that still waits just if
it awaited that message when it was sent.
-/

namespace ScheduleExplorer

variable {γ σ μ : Type}

namespace Slot

/-- The operation may run because the message has arrived, and its receive is going to take it. -/
structure IsWokenBy (envelope : Envelope) (slot : Slot σ) : Prop where
  enabled : slot.operation.status = .enabled
  takes : ∃ events next, slot.stage = .parked (.receive events) next ∧
    slot.inbox.find? (·.isAccepted events) = some envelope

/-- The stamps of the messages that wait are different and below a bound, and so is the send that the
operation has last received from. If this is the send of a message that waits, the message has woken
the operation. -/
structure Stamped (bound : Nat) (slot : Slot σ) : Prop where
  below : ∀ envelope ∈ slot.inbox, envelope.sendStep < bound
  sendBelow : ∀ send, slot.operation.matchingSend = some send → send < bound
  distinct : slot.inbox.Pairwise fun first second => first.sendStep ≠ second.sendStep
  woken : ∀ envelope ∈ slot.inbox, slot.operation.matchingSend = some envelope.sendStep →
    slot.IsWokenBy envelope

/-- Nothing waits for an operation that has received nothing. -/
theorem stamped_of_nil (bound : Nat) {slot : Slot σ} (hinbox : slot.inbox = [])
    (hsend : slot.operation.matchingSend = none) : slot.Stamped bound := by
  refine ⟨fun _ henvelope => ?_, fun send hsome => ?_, ?_, fun _ henvelope => ?_⟩
  · rw [hinbox] at henvelope
    cases henvelope
  · cases hsend.symm.trans hsome
  · rw [hinbox]
    exact .nil
  · rw [hinbox] at henvelope
    cases henvelope

/-- A message that has woken a receiver is no other than the one that the receiver takes. -/
theorem IsWokenBy.eq {slot : Slot σ} {envelope taken : Envelope} (h : slot.IsWokenBy envelope)
    {events : List EventType} {next : σ} (hstage : slot.stage = .parked (.receive events) next)
    (htaken : slot.inbox.find? (·.isAccepted events) = some taken) : envelope = taken := by
  obtain ⟨events', next', hstage', hfound⟩ := h.takes
  cases hstage.symm.trans hstage'
  exact Option.some.inj (hfound.symm.trans htaken)

/-- No message has woken an operation that takes none. -/
theorem IsIdle.not_isWokenBy {slot : Slot σ} (h : slot.IsIdle) (envelope : Envelope) :
    ¬ slot.IsWokenBy envelope := by
  intro hwoken
  obtain ⟨events, next, hstage, hfound⟩ := hwoken.takes
  have hrefused := h events next hstage envelope (List.mem_of_find?_eq_some hfound)
  have haccepted := List.find?_some hfound
  rw [hrefused] at haccepted
  cases haccepted

/-- What an operation last received from is forgotten, or it is not the send of a message that
waits. -/
theorem Stamped.of_forgotten {bound : Nat} {old new : Slot σ} (h : old.Stamped bound)
    (hinbox : new.inbox = old.inbox) (hsend : new.operation.matchingSend = none) :
    new.Stamped bound := by
  refine ⟨hinbox ▸ h.below, fun send hsome => ?_, hinbox ▸ h.distinct, fun _ _ hsome => ?_⟩ <;>
  cases hsend.symm.trans hsome

/-- Stamps that are below a bound are below a later one. -/
theorem Stamped.mono {bound later : Nat} {slot : Slot σ} (h : slot.Stamped bound)
    (hle : bound ≤ later) : slot.Stamped later :=
  ⟨fun envelope henvelope => (h.below envelope henvelope).trans_le hle,
    fun send hsend => (h.sendBelow send hsend).trans_le hle, h.distinct, h.woken⟩

/-- The stamps stay in order if nothing arrives and no message that has woken the operation ceases to. -/
theorem Stamped.of_same {bound : Nat} {old new : Slot σ} (h : old.Stamped bound)
    (hinbox : new.inbox = old.inbox)
    (hsend : new.operation.matchingSend = old.operation.matchingSend)
    (hwoken : ∀ envelope, old.IsWokenBy envelope → new.IsWokenBy envelope) : new.Stamped bound := by
  refine ⟨hinbox ▸ h.below, hsend ▸ h.sendBelow, hinbox ▸ h.distinct,
    fun envelope henvelope hsome => hwoken envelope ?_⟩
  exact h.woken envelope (hinbox ▸ henvelope) (hsend ▸ hsome)

section Arrivals

variable {bound later : Nat} {old new : Slot σ} {envelope : Envelope}

/-- A message that arrives with a later stamp leaves the stamps different. -/
theorem Stamped.arrives (h : old.Stamped bound) (hle : bound ≤ envelope.sendStep)
    (hlt : envelope.sendStep < later) :
    (∀ other ∈ old.inbox ++ [envelope], other.sendStep < later) ∧
      (old.inbox ++ [envelope]).Pairwise fun first second => first.sendStep ≠ second.sendStep := by
  refine ⟨fun other hother => ?_, ?_⟩
  · rcases List.mem_append.mp hother with hwaiting | hlast
    · exact (h.below other hwaiting).trans (hle.trans_lt hlt)
    · rw [List.mem_singleton.mp hlast]
      exact hlt
  · refine List.pairwise_append.mpr ⟨h.distinct, List.pairwise_singleton _ _, ?_⟩
    intro first hfirst second hsecond
    rw [List.mem_singleton.mp hsecond]
    exact Nat.ne_of_lt ((h.below first hfirst).trans_le hle)

/-- A message that arrives may wake the operation, which has then received from its send. No message
that was there has this stamp. -/
theorem Stamped.wakes (h : old.Stamped bound) (hle : bound ≤ envelope.sendStep)
    (hlt : envelope.sendStep < later) (hinbox : new.inbox = old.inbox ++ [envelope])
    (hsend : new.operation.matchingSend = some envelope.sendStep) (hwoken : new.IsWokenBy envelope) :
    new.Stamped later := by
  obtain ⟨hbelow, hdistinct⟩ := h.arrives hle hlt
  refine ⟨hinbox ▸ hbelow, fun send hsome => ?_, hinbox ▸ hdistinct, fun other hother hsome => ?_⟩
  · rw [hsend, Option.some.injEq] at hsome
    exact hsome ▸ hlt
  · rw [hsend, Option.some.injEq] at hsome
    rw [hinbox, List.mem_append, List.mem_singleton] at hother
    rcases hother with hwaiting | rfl
    · have hless := h.below other hwaiting
      omega
    · exact hwoken

/-- A message that arrives may leave the operation as it is. It has another stamp than the send that
the operation has last received from. -/
theorem Stamped.posts (h : old.Stamped bound) (hle : bound ≤ envelope.sendStep)
    (hlt : envelope.sendStep < later) (hinbox : new.inbox = old.inbox ++ [envelope])
    (hsend : new.operation.matchingSend = old.operation.matchingSend)
    (hwoken : ∀ other, old.IsWokenBy other → new.IsWokenBy other) : new.Stamped later := by
  obtain ⟨hbelow, hdistinct⟩ := h.arrives hle hlt
  refine ⟨hinbox ▸ hbelow, hsend ▸ (h.mono (hle.trans hlt.le)).sendBelow, hinbox ▸ hdistinct,
    fun other hother hsome => ?_⟩
  rw [hsend] at hsome
  rw [hinbox, List.mem_append, List.mem_singleton] at hother
  rcases hother with hwaiting | rfl
  · exact hwoken other (h.woken other hwaiting hsome)
  · exact absurd (h.sendBelow _ hsome) (Nat.not_lt_of_le hle)

end Arrivals

section Taking

variable {bound : Nat} {old new : Slot σ} {earlier later : Inbox} {envelope other : Envelope}

/-- What is left when a message is taken out has waited with it. -/
theorem mem_of_mem_left (hfound : old.inbox = earlier ++ envelope :: later)
    (hother : other ∈ earlier ++ later) : other ∈ old.inbox :=
  hfound ▸ ((List.sublist_cons_self envelope later).append_left earlier).subset hother

/-- A message taken out has a stamp that no other message has. -/
theorem Stamped.ne_of_mem (h : old.Stamped bound)
    (hfound : old.inbox = earlier ++ envelope :: later) (hother : other ∈ earlier ++ later) :
    envelope.sendStep ≠ other.sendStep := by
  have hdistinct := h.distinct
  rw [hfound, List.pairwise_append, List.pairwise_cons] at hdistinct
  obtain ⟨-, ⟨hlater, -⟩, hearlier⟩ := hdistinct
  rcases List.mem_append.mp hother with hbefore | hafter
  · exact (hearlier other hbefore envelope List.mem_cons_self).symm
  · exact hlater other hafter

/-- A message may be taken out, and the operation has then received from its send. -/
theorem Stamped.takes (h : old.Stamped bound) (hfound : old.inbox = earlier ++ envelope :: later)
    (hinbox : new.inbox = earlier ++ later)
    (hsend : new.operation.matchingSend = some envelope.sendStep) : new.Stamped bound := by
  refine ⟨fun other hother => ?_, fun send hsome => ?_, ?_, fun other hother hsome => ?_⟩
  · exact h.below other (mem_of_mem_left hfound (hinbox ▸ hother))
  · rw [hsend, Option.some.injEq] at hsome
    rw [← hsome]
    exact h.below envelope (by simp [hfound])
  · have hdistinct := h.distinct
    rw [hfound] at hdistinct
    rw [hinbox]
    exact hdistinct.sublist ((List.sublist_cons_self envelope later).append_left earlier)
  · rw [hsend, Option.some.injEq] at hsome
    exact absurd hsome (h.ne_of_mem hfound (hinbox ▸ hother))

end Taking

/-- A message has woken an operation as long as that stays enabled and keeps its stage, whatever
arrives after it. -/
theorem IsWokenBy.of_stage {old new : Slot σ} {envelope : Envelope} {arrived : Inbox}
    (h : old.IsWokenBy envelope) (hinbox : new.inbox = old.inbox ++ arrived)
    (henabled : old.operation.status = .enabled → new.operation.status = .enabled)
    (hstage : new.stage = old.stage) : new.IsWokenBy envelope := by
  obtain ⟨hruns, events, next, hparked, hfound⟩ := h
  refine ⟨henabled hruns, events, next, hstage.trans hparked, ?_⟩
  rw [hinbox, List.find?_append, hfound, Option.some_or]

/-- A message that an operation waits for wakes it: the operation has accepted none of the messages
before it. -/
theorem isWokenBy_of_arrives {holder? : ResourceId → Option OperationId} {id : OperationId}
    {old new : Slot σ} {envelope : Envelope} (hfits : Fits holder? id old)
    (hawaits : old.operation.awaitsEvent envelope.message.event = true)
    (hinbox : new.inbox = old.inbox ++ [envelope]) (hstatus : new.operation.status = .enabled)
    (hstage : new.stage = old.stage) : new.IsWokenBy envelope := by
  rw [Operation.awaitsEvent, Bool.and_eq_true, decide_eq_true_eq] at hawaits
  obtain ⟨hblocked, hevent⟩ := hawaits
  obtain ⟨⟨next, hparked⟩, hrefused⟩ := hfits.receive hblocked
  refine ⟨hstatus, _, next, hstage.trans hparked, ?_⟩
  have hnone : old.inbox.find? (·.isAccepted old.operation.awaitedEvents) = none :=
    List.find?_eq_none.mpr fun other hother => by
      rw [hrefused other hother]
      exact Bool.false_ne_true
  rw [hinbox, List.find?_append, hnone, Option.none_or, List.find?_singleton, Envelope.isAccepted,
    hevent, if_pos rfl]

end Slot

namespace Execution

/-- The turn is that of the operation that sends an envelope. -/
structure Sends (receiver : OperationId) (envelope : Envelope) (ex : Execution γ σ μ) : Prop where
  turn : ex.iteration.current = envelope.sender
  step : ex.iteration.operationSteps = envelope.sendStep + 1
  stage : ∃ next, ex.stage? envelope.sender = some (.parked (.send receiver envelope.message) next)

/-- Every stamp is below a bound, which is the number of the turn at most while the body whose turn
it is is still parked. -/
structure IsStamped (ex : Execution γ σ μ) (bound : Nat) : Prop where
  le : bound ≤ ex.iteration.operationSteps
  lt : ∀ primitive next, ex.stage? ex.iteration.current = some (.parked primitive next) →
    primitive ≠ .start → bound < ex.iteration.operationSteps
  stamped : ∀ id slot, ex.slot? id = some slot → slot.Stamped bound

variable {ex : Execution γ σ μ} {bound : Nat} {id : OperationId} {old new : Slot σ}

/-- Where a message is sent, its stamp is the bound of the others or more. -/
theorem IsStamped.le_sendStep (h : ex.IsStamped bound) {receiver : OperationId} {message : Message}
    {next : σ}
    (hsends : ex.stage? ex.iteration.current = some (.parked (.send receiver message) next)) :
    bound ≤ ex.iteration.operationSteps - 1 ∧
      ex.iteration.operationSteps - 1 < ex.iteration.operationSteps := by
  have hlt := h.lt _ next hsends fun heq => by cases heq
  omega

/-- A step keeps the stamps in order. -/
theorem Mails.stamped (h : ex.Mails id old new) (hex : ex.IsStamped bound)
    (hfits : Fits ex.holder? id old) (hold : old.Stamped bound) :
    new.Stamped ex.iteration.operationSteps := by
  have hlater := hold.mono hex.le
  cases h with
  | keeps hkeeps =>
    refine hlater.of_same hkeeps.inbox hkeeps.matchingSend fun envelope hwoken => ?_
    exact hwoken.of_stage (by rw [hkeeps.inbox, List.append_nil]) hkeeps.enabled hkeeps.stage
  | moves hturn hidle hinbox hend =>
    rcases hend with ⟨hsend, -⟩ | ⟨hsend, -⟩
    · exact hlater.of_same hinbox hsend fun envelope hwoken =>
        absurd hwoken (hidle.not_isWokenBy envelope)
    · exact hlater.of_forgotten hinbox hsend
  | wakes hsends hawaits hinbox hsend hstatus hstage =>
    obtain ⟨hle, hlt⟩ := hex.le_sendStep hsends
    exact hold.wakes hle hlt hinbox hsend
      (Slot.isWokenBy_of_arrives hfits hawaits hinbox hstatus hstage)
  | posts hsends hawaits hinbox hsend henabled hstage =>
    obtain ⟨hle, hlt⟩ := hex.le_sendStep hsends
    refine hold.posts hle hlt hinbox hsend fun envelope hwoken => ?_
    rcases hstage with hsame | hidle
    · exact hwoken.of_stage hinbox henabled hsame
    · exact absurd hwoken (hidle.not_isWokenBy envelope)
  | takes _ _ hfound _ _ hinbox hsend => exact hlater.takes hfound hinbox hsend
  | begins hstage hinbox hsend => exact hlater.of_forgotten hinbox hsend

/-- A message that waits after a step has waited before, or the step has sent it. What the operation
has last received from is its send afterwards if it was before, and if the operation awaited it. -/
theorem Mails.origin (h : ex.Mails id old new) (hex : ex.IsStamped bound) (hold : old.Stamped bound)
    {envelope : Envelope} (henvelope : envelope ∈ new.inbox) :
    (envelope ∈ old.inbox ∧ (new.operation.matchingSend = some envelope.sendStep ↔
        old.operation.matchingSend = some envelope.sendStep)) ∨
      (ex.Sends id envelope ∧ new.inbox = old.inbox ++ [envelope] ∧
        (new.operation.matchingSend = some envelope.sendStep ↔
          old.operation.awaitsEvent envelope.message.event = true)) := by
  have hsends {receiver : OperationId} {message : Message} {next : σ}
      (hstage : ex.stage? ex.iteration.current = some (.parked (.send receiver message) next)) :
      ex.Sends receiver ⟨message, ex.iteration.current, ex.iteration.operationSteps - 1⟩ :=
    ⟨rfl, by have := hex.le_sendStep hstage; dsimp only; omega, next, hstage⟩
  cases h with
  | keeps hkeeps => exact .inl ⟨hkeeps.inbox ▸ henvelope, by rw [hkeeps.matchingSend]⟩
  | moves hturn hidle hinbox hend =>
    have hwaited : envelope ∈ old.inbox := hinbox ▸ henvelope
    refine .inl ⟨hwaited, ?_⟩
    have hnot : old.operation.matchingSend ≠ some envelope.sendStep := fun hsome =>
      hidle.not_isWokenBy envelope (hold.woken envelope hwaited hsome)
    rcases hend with ⟨hsend, -⟩ | ⟨hsend, -⟩
    · rw [hsend]
    · rw [hsend]
      exact iff_of_false (by simp) hnot
  | wakes hstage hawaits hinbox hsend =>
    rw [hinbox, List.mem_append, List.mem_singleton] at henvelope
    rcases henvelope with hwaited | rfl
    · have hless := hold.below envelope hwaited
      have hle := hex.le_sendStep hstage
      refine .inl ⟨hwaited, iff_of_false (fun hsome => ?_) fun hsome => ?_⟩
      · rw [hsend, Option.some.injEq] at hsome
        omega
      · have hruns := (hold.woken envelope hwaited hsome).enabled
        rw [Operation.awaitsEvent, hruns] at hawaits
        cases hawaits
    · exact .inr ⟨hsends hstage, hinbox, iff_of_true hsend hawaits⟩
  | posts hstage hawaits hinbox hsend =>
    rw [hinbox, List.mem_append, List.mem_singleton] at henvelope
    rcases henvelope with hwaited | rfl
    · exact .inl ⟨hwaited, by rw [hsend]⟩
    · refine .inr ⟨hsends hstage, hinbox, iff_of_false (fun hsome => ?_) ?_⟩
      · have hless := hold.sendBelow _ (hsend ▸ hsome)
        have hle := hex.le_sendStep hstage
        dsimp only at hless
        omega
      · rw [hawaits]
        exact Bool.false_ne_true
  | @takes events next earlier later taken hturn hstage hfound haccepted hearlier hinbox hsend =>
    rw [hinbox] at henvelope
    have hne := hold.ne_of_mem hfound henvelope
    have hwaited := Slot.mem_of_mem_left hfound henvelope
    refine .inl ⟨hwaited, iff_of_false (fun hsome => ?_) fun hsome => ?_⟩
    · rw [hsend, Option.some.injEq] at hsome
      exact hne hsome
    · refine hne (congrArg _ ((hold.woken envelope hwaited hsome).eq hstage ?_)).symm
      rw [List.find?_eq_some_iff_append]
      exact ⟨haccepted, earlier, later, hfound, fun other hother => by rw [hearlier other hother]; rfl⟩
  | begins hstage hinbox hsend =>
    have hwaited : envelope ∈ old.inbox := hinbox ▸ henvelope
    refine .inl ⟨hwaited, iff_of_false (by simp [hsend]) fun hsome => ?_⟩
    obtain ⟨events, next, hparked, -⟩ := (hold.woken envelope hwaited hsome).takes
    cases hstage.symm.trans hparked

/-- After a step an operation that runs on has last received from what it had before, unless it
completes in the step and forgets it. -/
theorem Mails.of_running {id : OperationId} {old new : Slot σ} (h : ex.Mails id old new)
    (henabled : old.operation.status = .enabled)
    (hstage : ∀ primitive next, old.stage ≠ .parked primitive next) (hbegun : old.stage ≠ .announced) :
    new.operation.matchingSend = old.operation.matchingSend ∧
        new.operation.status.isCompleted = false ∨
      new.operation.matchingSend = none ∧ new.operation.status.isCompleted = true := by
  have hopen {slot : Slot σ} (h : slot.operation.status = .enabled) :
      slot.operation.status.isCompleted = false := by
    rw [h]
    rfl
  cases h with
  | keeps hkeeps => exact .inl ⟨hkeeps.matchingSend, hopen (hkeeps.enabled henabled)⟩
  | moves _ _ _ hend => exact hend
  | wakes _ hawaits =>
    rw [Operation.awaitsEvent, henabled] at hawaits
    cases hawaits
  | posts _ _ _ hsend hruns => exact .inl ⟨hsend, hopen (hruns henabled)⟩
  | takes _ hparked => exact absurd hparked (hstage _ _)
  | begins hannounced => exact absurd hannounced hbegun

end Execution

end ScheduleExplorer
