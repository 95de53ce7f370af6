import ScheduleExplorer.Proofs.Execution.Recorded

/-!
# Letters

What a step does to the messages that wait for an operation, and to the send that the operation has
last received from. `Execution.Mails` lists it for one operation: the step leaves both alone, or the
operation moves on, a message arrives, a message is taken, or the body begins.
-/

namespace ScheduleExplorer

variable {γ σ μ : Type}

namespace Slot

/-- The body is not at a receive that can take a message. -/
def IsIdle (slot : Slot σ) : Prop :=
  ∀ events next, slot.stage = .parked (.receive events) next →
    ∀ envelope ∈ slot.inbox, envelope.isAccepted events = false

/-- Nothing has changed that concerns messages. -/
structure Keeps (old new : Slot σ) : Prop where
  inbox : new.inbox = old.inbox
  matchingSend : new.operation.matchingSend = old.operation.matchingSend
  stage : new.stage = old.stage
  enabled : old.operation.status = .enabled → new.operation.status = .enabled
  completed : new.operation.status.isCompleted = old.operation.status.isCompleted

/-- A slot that does not change is kept. -/
theorem Keeps.refl (slot : Slot σ) : slot.Keeps slot :=
  ⟨rfl, rfl, rfl, id, rfl⟩

/-- A body that is not at a receive takes no message. -/
theorem isIdle_of_stage {slot : Slot σ}
    (h : ∀ events next, slot.stage ≠ .parked (.receive events) next) : slot.IsIdle :=
  fun events next hstage => absurd hstage (h events next)

end Slot

namespace Execution

/-- What a step does to one operation, its inbox and the send that it has last received from. -/
inductive Mails (ex : Execution γ σ μ) (id : OperationId) (old : Slot σ) : Slot σ → Prop where
  | keeps {new : Slot σ} (h : old.Keeps new) : Mails ex id old new
  /-- The operation takes a step of its own that takes no message. -/
  | moves {new : Slot σ} (hturn : ex.iteration.current = id) (hidle : old.IsIdle)
      (hinbox : new.inbox = old.inbox)
      (hend : new.operation.matchingSend = old.operation.matchingSend ∧
          new.operation.status.isCompleted = false ∨
        new.operation.matchingSend = none ∧ new.operation.status.isCompleted = true) :
      Mails ex id old new
  /-- A message arrives that the operation waits for. -/
  | wakes {new : Slot σ} {message : Message} {next : σ}
      (hsends : ex.stage? ex.iteration.current = some (.parked (.send id message) next))
      (hawaits : old.operation.awaitsEvent message.event = true)
      (hinbox : new.inbox =
        old.inbox ++ [⟨message, ex.iteration.current, ex.iteration.operationSteps - 1⟩])
      (hsend : new.operation.matchingSend = some (ex.iteration.operationSteps - 1))
      (hstatus : new.operation.status = .enabled) (hstage : new.stage = old.stage) :
      Mails ex id old new
  /-- A message arrives that the operation does not wait for; it may be the sender. -/
  | posts {new : Slot σ} {message : Message} {next : σ}
      (hsends : ex.stage? ex.iteration.current = some (.parked (.send id message) next))
      (hawaits : old.operation.awaitsEvent message.event = false)
      (hinbox : new.inbox =
        old.inbox ++ [⟨message, ex.iteration.current, ex.iteration.operationSteps - 1⟩])
      (hsend : new.operation.matchingSend = old.operation.matchingSend)
      (henabled : old.operation.status = .enabled → new.operation.status = .enabled)
      (hstage : new.stage = old.stage ∨ old.IsIdle) : Mails ex id old new
  /-- The operation takes the oldest message that it accepts. -/
  | takes {new : Slot σ} {events : List EventType} {next : σ} {earlier later : Inbox}
      {envelope : Envelope} (hturn : ex.iteration.current = id)
      (hstage : old.stage = .parked (.receive events) next)
      (hfound : old.inbox = earlier ++ envelope :: later)
      (haccepted : envelope.isAccepted events = true)
      (hearlier : ∀ other ∈ earlier, other.isAccepted events = false)
      (hinbox : new.inbox = earlier ++ later)
      (hsend : new.operation.matchingSend = some envelope.sendStep)
      (hstatus : new.operation.status = .enabled)
      (hruns : ∃ reply, new.stage = .running next reply) : Mails ex id old new
  /-- The body of the operation begins. -/
  | begins {new : Slot σ} (hstage : old.stage = .announced) (hinbox : new.inbox = old.inbox)
      (hsend : new.operation.matchingSend = none) : Mails ex id old new

/-- What becomes of every operation, where new ones have received nothing. -/
def MailsTo (ex after : Execution γ σ μ) : Prop :=
  ∀ id new, after.slot? id = some new →
    (ex.slot? id = none ∧ new.inbox = [] ∧ new.operation.matchingSend = none) ∨
      ∃ old, ex.slot? id = some old ∧ ex.Mails id old new

/-- Changes that concern no messages do not matter. -/
theorem Mails.keepsTo {ex : Execution γ σ μ} {id : OperationId} {old between new : Slot σ}
    (h : ex.Mails id old between) (hkeeps : between.Keeps new) : ex.Mails id old new := by
  obtain ⟨hinbox', hsend', hstage', henabled', hcompleted'⟩ := hkeeps
  cases h with
  | keeps h =>
    exact .keeps ⟨hinbox'.trans h.inbox, hsend'.trans h.matchingSend, hstage'.trans h.stage,
      fun henabled => henabled' (h.enabled henabled), hcompleted'.trans h.completed⟩
  | moves hturn hidle hinbox hend =>
    refine .moves hturn hidle (hinbox'.trans hinbox) ?_
    rwa [hsend', hcompleted']
  | wakes hsends hawaits hinbox hsend hstatus hstage =>
    exact .wakes hsends hawaits (hinbox'.trans hinbox) (hsend'.trans hsend) (henabled' hstatus)
      (hstage'.trans hstage)
  | posts hsends hawaits hinbox hsend henabled hstage =>
    exact .posts hsends hawaits (hinbox'.trans hinbox) (hsend'.trans hsend)
      (fun hold => henabled' (henabled hold)) (by rwa [hstage'])
  | takes hturn hstage hfound haccepted hearlier hinbox hsend hstatus hruns =>
    exact .takes hturn hstage hfound haccepted hearlier (hinbox'.trans hinbox) (hsend'.trans hsend)
      (henabled' hstatus) (by rwa [hstage'])
  | begins hstage hinbox hsend => exact .begins hstage (hinbox'.trans hinbox) (hsend'.trans hsend)

/-! ### Turns -/

/-- The slots after a change of one of them. -/
theorem Changes.slot?_eq {ex after : Execution γ σ μ} {id : OperationId} {f : Slot σ → Slot σ}
    (h : Changes id f ex after) (other : OperationId) :
    after.slot? other = (ex.slot? other).map fun slot => if other = id then f slot else slot := by
  by_cases hother : other = id
  · subst hother
    simp only [h.here, if_true]
  · simp only [h.elsewhere other hother, hother, if_false, Option.map_id']

section Turns

variable {ex : Execution γ σ μ}

/-- A turn that takes no message and sends none changes the operation whose turn it is. -/
theorem mailsTo_of_changes {after : Execution γ σ μ} {id : OperationId} {f : Slot σ → Slot σ}
    (hid : ex.iteration.current = id)
    (hslots : ∀ other, after.slot? other =
      (ex.slot? other).map fun slot => if other = id then f slot else slot)
    (hidle : ∀ slot, ex.slot? id = some slot → slot.IsIdle)
    (hinbox : ∀ slot, (f slot).inbox = slot.inbox)
    (hend : ∀ slot, ex.slot? id = some slot →
      (f slot).operation.matchingSend = slot.operation.matchingSend ∧
          (f slot).operation.status.isCompleted = false ∨
        (f slot).operation.matchingSend = none ∧ (f slot).operation.status.isCompleted = true) :
    ex.MailsTo after := by
  intro other new hnew
  rw [hslots, Option.map_eq_some_iff] at hnew
  obtain ⟨old, hold, rfl⟩ := hnew
  refine .inr ⟨old, hold, ?_⟩
  split
  · next hother =>
    subst hother
    exact .moves hid (hidle old hold) (hinbox old) (hend old hold)
  · exact .keeps (.refl old)

/-- A turn in which nothing changes that concerns messages. -/
theorem mailsTo_of_slots {after : Execution γ σ μ}
    (h : ∀ id, after.slot? id = ex.slot? id) : ex.MailsTo after := by
  intro id new hnew
  rw [h] at hnew
  exact .inr ⟨new, hnew, .keeps (.refl new)⟩

/-- The slots after a reply. -/
theorem slot?_reply (id : OperationId) (next : σ) (reply : Reply) (other : OperationId) :
    (ex.reply id next reply).slot? other = (ex.slot? other).map fun slot =>
      if other = id then { slot with stage := .running next reply } else slot :=
  (Changes.setStage id (.running next reply) ex).slot?_eq other

/-- A body that goes on. -/
theorem mailsTo_reply {between : Execution γ σ μ} {id : OperationId}
    (hid : ex.iteration.current = id) (hfree : ex.IsFree id)
    (hslots : ∀ other, between.slot? other = ex.slot? other)
    (hidle : ∀ slot, ex.slot? id = some slot → slot.IsIdle) (next : σ) (reply : Reply) :
    ex.MailsTo (between.reply id next reply) := by
  refine mailsTo_of_changes (f := fun slot => { slot with stage := .running next reply }) hid
    (fun other => ?_) hidle (fun _ => rfl) fun slot hslot => .inl ⟨rfl, ?_⟩
  · rw [slot?_reply, hslots]
  · rw [hfree slot hslot]
    rfl

/-- A body that stands elsewhere takes no message. -/
theorem isIdle_of_stage? {id : OperationId} {stage : Stage σ} (hstage : ex.stage? id = some stage)
    (hidle : ∀ events next, stage ≠ .parked (.receive events) next) {slot : Slot σ}
    (hslot : ex.slot? id = some slot) : slot.IsIdle := by
  refine Slot.isIdle_of_stage fun events next hparked => ?_
  rw [(slot?_eq_some.mp hslot).2.1, Option.some.injEq] at hstage
  exact hidle events next (hstage.symm.trans hparked)

/-- A message that is sent arrives at its target. -/
theorem mailsTo_deliver (hfree : ex.IsFree ex.iteration.current) {target : OperationId}
    {message : Message} {next : σ}
    (hstage : ex.stage? ex.iteration.current = some (.parked (.send target message) next)) :
    ex.MailsTo ((ex.deliver ex.iteration.current target message).reply ex.iteration.current next
      .done) := by
  intro id new hnew
  rw [slot?_reply, Option.map_eq_some_iff] at hnew
  obtain ⟨delivered, hdelivered, rfl⟩ := hnew
  have hchange := (Changes.modifyInbox target
    (· ++ [⟨message, ex.iteration.current, ex.iteration.operationSteps - 1⟩]) ex).trans
    (.updateOperation target (fun op => if op.awaitsEvent message.event then
      op.receive (ex.iteration.operationSteps - 1) else op) _)
  have hslots := hchange.slot?_eq id
  rw [show ({ ex with inboxes := _ } : Execution γ σ μ).updateOperation target _ =
    ex.deliver ex.iteration.current target message from rfl, hdelivered, eq_comm,
    Option.map_eq_some_iff] at hslots
  obtain ⟨old, hold, rfl⟩ := hslots
  refine .inr ⟨old, hold, ?_⟩
  have hidle : id = ex.iteration.current → old.IsIdle := by
    rintro rfl
    exact isIdle_of_stage? hstage (fun _ _ heq => by cases heq) hold
  have hawake : id = ex.iteration.current → old.operation.awaitsEvent message.event = false := by
    rintro rfl
    rw [Operation.awaitsEvent, hfree old hold]
    rfl
  by_cases htarget : id = target
  · subst htarget
    simp only [if_true, Function.comp_apply]
    cases hawaits : old.operation.awaitsEvent message.event with
    | true =>
      have hother : id ≠ ex.iteration.current := fun heq => by
        rw [hawake heq] at hawaits
        cases hawaits
      rw [if_neg hother]
      refine .wakes hstage hawaits rfl rfl ?_ rfl
      simp [Operation.receive, Operation.status_of_awaitsEvent hawaits]
    | false =>
      simp only [Bool.false_eq_true, if_false]
      split
      · next hself => exact .posts hstage hawaits rfl rfl (fun h => h) (.inr (hidle hself))
      · exact .posts hstage hawaits rfl rfl (fun h => h) (.inl rfl)
  · rw [if_neg htarget]
    split
    · next hself =>
      refine .moves hself.symm (hidle hself) rfl (.inl ⟨rfl, ?_⟩)
      rw [hfree old (hself ▸ hold)]
      rfl
    · exact .keeps (.refl old)

/-- A message that is received is taken. -/
theorem mailsTo_receive (hfree : ex.IsFree ex.iteration.current) {events : List EventType}
    {next : σ} (hstage : ex.stage? ex.iteration.current = some (.parked (.receive events) next))
    {envelope : Envelope} {after : Execution γ σ μ}
    (htake : ex.takeMessage? ex.iteration.current events = some (envelope, after))
    (reply : Reply) :
    ex.MailsTo ((after.updateOperation ex.iteration.current
      (Operation.receive envelope.sendStep)).reply ex.iteration.current next reply) := by
  obtain ⟨earlier, later, hfound, haccepted, hearlier, rfl, -⟩ := takeMessage?_eq_some htake
  intro id new hnew
  have hchange := ((Changes.modifyInbox ex.iteration.current (fun _ => earlier ++ later) ex).trans
    (.updateOperation ex.iteration.current (Operation.receive envelope.sendStep) _)).trans
    (.setStage ex.iteration.current (.running next reply) _)
  have hslots := hchange.slot?_eq id
  rw [← Execution.reply, hnew, eq_comm, Option.map_eq_some_iff] at hslots
  obtain ⟨old, hold, rfl⟩ := hslots
  refine .inr ⟨old, hold, ?_⟩
  split
  · next hself =>
    subst hself
    obtain ⟨-, hparked, hinbox⟩ := slot?_eq_some.mp hold
    rw [inbox, hinbox, Option.getD_some] at hfound
    refine .takes rfl (Option.some.inj (hparked.symm.trans hstage)) hfound haccepted hearlier rfl
      rfl ?_ ⟨reply, rfl⟩
    simp [Operation.receive, hfree old hold]
  · exact .keeps (.refl old)

/-- A resource that is freed wakes operations that wait for no message. -/
theorem slot?_free (resource : ResourceId) (id : OperationId) :
    (ex.free resource).slot? id = (ex.slot? id).map fun slot =>
      { slot with operation := slot.operation.wakeOnRelease resource } := by
  simp only [slot?, stage?, Execution.free, setHolder, mapIteration, Iteration.operation?,
    List.getElem?_map]
  cases ex.iteration.operations[id.index]? <;> cases ex.stages[id.index]? <;>
    cases ex.inboxes[id.index]? <;> rfl

/-- An operation that is woken by a release keeps what concerns messages. -/
theorem keeps_wakeOnRelease (resource : ResourceId) (slot : Slot σ) :
    slot.Keeps { slot with operation := slot.operation.wakeOnRelease resource } := by
  rw [Operation.wakeOnRelease]
  split
  · next hawaits =>
    refine ⟨rfl, rfl, rfl, fun _ => rfl, ?_⟩
    rw [Operation.status_of_awaitsResource hawaits]
    rfl
  · exact .refl slot

/-- A resource that is released. -/
theorem mailsTo_release (hfree : ex.IsFree ex.iteration.current) {resource : ResourceId} {next : σ}
    (hstage : ex.stage? ex.iteration.current = some (.parked (.release resource) next)) :
    ex.MailsTo ((ex.free resource).reply ex.iteration.current next .done) := by
  intro id new hnew
  rw [slot?_reply, slot?_free, Option.map_map, Option.map_eq_some_iff] at hnew
  obtain ⟨old, hold, rfl⟩ := hnew
  refine .inr ⟨old, hold, ?_⟩
  have hkeeps := keeps_wakeOnRelease resource old
  dsimp only [Function.comp_apply]
  split
  · next hself =>
    subst hself
    refine .moves rfl (isIdle_of_stage? hstage (fun _ _ heq => by cases heq) hold) rfl
      (.inl ⟨hkeeps.matchingSend, hkeeps.completed.trans ?_⟩)
    rw [hfree old hold]
    rfl
  · exact .keeps hkeeps

/-- A spawned body begins, and the spawning one goes on. -/
theorem mailsTo_spawn (hfree : ex.IsFree ex.iteration.current) {child : OperationId} {body next : σ}
    (hstage : ex.stage? ex.iteration.current = some (.parked (.spawn child body) next))
    (hannounced : ex.stage? child = some .announced) :
    ex.MailsTo ((ex.begin child body).reply ex.iteration.current next (.operation child)) := by
  intro id new hnew
  have hbegun := ((Changes.updateOperation child Operation.create ex).trans
    (.setStage child (.parked .start body) _)).slot?_eq id
  rw [← Execution.begin] at hbegun
  rw [slot?_reply, hbegun, Option.map_map, Option.map_eq_some_iff] at hnew
  obtain ⟨old, hold, rfl⟩ := hnew
  refine .inr ⟨old, hold, ?_⟩
  dsimp only [Function.comp_apply]
  by_cases hchild : id = child
  · subst hchild
    have hself : id ≠ ex.iteration.current := by
      rintro rfl
      rw [hannounced] at hstage
      cases hstage
    rw [if_neg hself, if_pos rfl]
    exact .begins (Option.some.inj ((slot?_eq_some.mp hold).2.1.symm.trans hannounced)) rfl rfl
  · rw [if_neg hchild]
    split
    · next hself =>
      subst hself
      refine .moves rfl (isIdle_of_stage? hstage (fun _ _ heq => by cases heq) hold) rfl
        (.inl ⟨rfl, ?_⟩)
      rw [hfree old hold]
      rfl
    · exact .keeps (.refl old)

/-- What a primitive that is carried out does to messages. -/
theorem mailsTo_grantTurn (hfree : ex.IsFree ex.iteration.current) {primitive : Primitive σ}
    {next : σ} (hstage : ex.stage? ex.iteration.current = some (.parked primitive next))
    (hannounced : ∀ child body, primitive = .spawn child body →
      ex.stage? child = some .announced) :
    ex.MailsTo (ex.grantTurn ex.iteration.current next primitive).execution := by
  have hgoesOn {between : Execution γ σ μ} (hslots : ∀ other, between.slot? other = ex.slot? other)
      (hidle : ∀ events next', Stage.parked primitive next ≠ .parked (.receive events) next')
      (reply : Reply) : ex.MailsTo (between.reply ex.iteration.current next reply) :=
    mailsTo_reply rfl hfree hslots (fun _ hslot => isIdle_of_stage? hstage hidle hslot) next reply
  cases primitive with
  | start => exact hgoesOn (fun _ => rfl) (fun _ _ heq => by cases heq) _
  | resume => exact hgoesOn (fun _ => rfl) (fun _ _ heq => by cases heq) _
  | spawn child body => exact mailsTo_spawn hfree hstage (hannounced child body rfl)
  | join targets all =>
    simp only [grantTurn]
    split
    · exact hgoesOn (fun _ => rfl) (fun _ _ heq => by cases heq) _
    · refine mailsTo_of_changes rfl (((Changes.setStage ex.iteration.current _ ex).trans
        (.updateOperation ex.iteration.current _ _)).slot?_eq) (fun _ hslot =>
          isIdle_of_stage? hstage (fun _ _ heq => by cases heq) hslot) (fun _ => rfl)
        fun slot hslot => .inl ?_
      have henabled : slot.operation.isEnabled = true := by
        rw [Operation.isEnabled, hfree slot hslot]
        rfl
      cases all <;> simp [Operation.waitTasks, henabled, Status.isCompleted]
  | send target message => exact mailsTo_deliver hfree hstage
  | receive events =>
    simp only [grantTurn]
    cases htake : ex.takeMessage? ex.iteration.current events with
    | some taken => exact mailsTo_receive hfree hstage htake _
    | none =>
      refine mailsTo_of_changes rfl ((Changes.updateOperation ex.iteration.current
        (Operation.waitEvents events) ex).slot?_eq) (fun slot hslot => ?_) (fun _ => rfl)
        fun slot hslot => .inl ?_
      · obtain ⟨-, hparked, hinbox⟩ := slot?_eq_some.mp hslot
        have hempty : slot.inbox.take? events = none := by
          rw [takeMessage?, hinbox] at htake
          cases htaken : slot.inbox.take? events with
          | none => rfl
          | some taken => simp [htaken] at htake
        intro other next' hother
        obtain ⟨heq, -⟩ := Stage.parked.inj (Option.some.inj
          ((congrArg some hother).symm.trans (hparked.symm.trans hstage)))
        obtain rfl := Primitive.receive.inj heq
        exact Inbox.take?_eq_none hempty
      · have henabled : slot.operation.isEnabled = true := by
          rw [Operation.isEnabled, hfree slot hslot]
          rfl
        simp [Operation.waitEvents, henabled, Status.isCompleted]
  | acquire resource =>
    simp only [grantTurn]
    cases ex.holder? resource with
    | none => exact hgoesOn (fun _ => rfl) (fun _ _ heq => by cases heq) _
    | some holder =>
      dsimp only
      split
      · exact mailsTo_of_slots fun _ => rfl
      · refine mailsTo_of_changes rfl ((Changes.updateOperation ex.iteration.current
          (Operation.waitResource resource) ex).slot?_eq) (fun _ hslot =>
            isIdle_of_stage? hstage (fun _ _ heq => by cases heq) hslot) (fun _ => rfl)
          fun slot hslot => .inl ?_
        have henabled : slot.operation.isEnabled = true := by
          rw [Operation.isEnabled, hfree slot hslot]
          rfl
        simp [Operation.waitResource, henabled, Status.isCompleted]
  | release resource =>
    simp only [grantTurn]
    split
    · exact mailsTo_release hfree hstage
    · exact mailsTo_of_slots fun _ => rfl

/-- The slots after the operation whose turn it is is parked. -/
theorem slot?_park (program : Program σ μ) (primitive : Primitive σ) (next : σ)
    (describe : Operation → Operation) (other : OperationId) :
    (ex.park program ex.iteration.current primitive next describe).slot? other =
      (ex.slot? other).map fun slot =>
        if other = ex.iteration.current then
          { slot with
            operation := (describe slot.operation).recordState (ex.hashes program)
            stage := .parked primitive next }
        else slot :=
  (((Changes.setStage ex.iteration.current (.parked primitive next) ex).trans
    (.updateOperation ex.iteration.current describe _)).trans
    (.updateOperation ex.iteration.current (Operation.recordState (ex.hashes program)) _)).slot?_eq
      other

/-- A body that announces its next step. -/
theorem mailsTo_park (program : Program σ μ) (hfree : ex.IsFree ex.iteration.current)
    {state : σ} {reply : Reply}
    (hstage : ex.stage? ex.iteration.current = some (.running state reply))
    (primitive : Primitive σ) (next : σ) {describe : Operation → Operation}
    (hdescribe : ∀ op, (describe op).status = op.status ∧
      (describe op).matchingSend = op.matchingSend) :
    ex.MailsTo (ex.park program ex.iteration.current primitive next describe) := by
  refine mailsTo_of_changes rfl (slot?_park program primitive next describe)
    (fun _ hslot => isIdle_of_stage? hstage (fun _ _ heq => by cases heq) hslot) (fun _ => rfl)
    fun slot hslot => .inl ⟨(hdescribe _).2, ?_⟩
  change (describe slot.operation).status.isCompleted = false
  rw [(hdescribe _).1, hfree slot hslot]
  rfl

/-- A body that announces a spawn. -/
theorem mailsTo_enroll (program : Program σ μ) (hsettled : ex.Settled)
    (hfree : ex.IsFree ex.iteration.current)
    (hid : ex.iteration.current.index < ex.iteration.operations.length) {state : σ} {reply : Reply}
    (hstage : ex.stage? ex.iteration.current = some (.running state reply)) (name : String)
    (primitive : Primitive σ) (next : σ) {describe : Operation → Operation}
    (hdescribe : ∀ op, (describe op).status = op.status ∧
      (describe op).matchingSend = op.matchingSend) :
    ex.MailsTo ((ex.enroll name).park program ex.iteration.current primitive next describe) := by
  intro id new hnew
  have hslots := (ex.enroll name).slot?_park program primitive next describe id
  rw [show (ex.enroll name).iteration.current = ex.iteration.current from rfl, hnew,
    slot?_enroll hsettled] at hslots
  by_cases hlast : id.index = ex.iteration.operations.length
  · -- Nothing has happened to the operation that is registered but for its registration.
    have hne : id ≠ ex.iteration.current := by
      rintro rfl
      exact absurd hlast (Nat.ne_of_lt hid)
    rw [if_pos hlast, Option.map_some, if_neg hne, Option.some.injEq] at hslots
    subst hslots
    refine .inl ⟨?_, rfl, rfl⟩
    cases hslot : ex.slot? id with
    | none => rfl
    | some slot =>
      exact absurd hlast (Nat.ne_of_lt (List.getElem?_eq_some_iff.mp (slot?_eq_some.mp hslot).1).1)
  · rw [if_neg hlast, eq_comm, Option.map_eq_some_iff] at hslots
    obtain ⟨old, hold, rfl⟩ := hslots
    refine .inr ⟨old, hold, ?_⟩
    split
    · next hself =>
      subst hself
      refine .moves rfl (isIdle_of_stage? hstage (fun _ _ heq => by cases heq) hold) rfl
        (.inl ⟨(hdescribe _).2, ?_⟩)
      change (describe old.operation).status.isCompleted = false
      rw [(hdescribe _).1, hfree old hold]
      rfl
    · exact .keeps (.refl old)

/-- What a call does to messages. -/
theorem mailsTo_callTurn (program : Program σ μ) (hsettled : ex.Settled)
    (hfree : ex.IsFree ex.iteration.current)
    (hid : ex.iteration.current.index < ex.iteration.operations.length) {state : σ} {reply : Reply}
    (hstage : ex.stage? ex.iteration.current = some (.running state reply)) (next : σ)
    (request : Request σ) :
    ex.MailsTo (ex.callTurn program ex.iteration.current next request).execution := by
  have hgoesOn {between : Execution γ σ μ} (hslots : ∀ other, between.slot? other = ex.slot? other)
      (answer : Reply) : ex.MailsTo (between.reply ex.iteration.current next answer) :=
    mailsTo_reply rfl hfree hslots
      (fun _ hslot => isIdle_of_stage? hstage (fun _ _ heq => by cases heq) hslot) next answer
  have hparks (primitive : Primitive σ) {describe : Operation → Operation}
      (hdescribe : ∀ op, (describe op).status = op.status ∧
        (describe op).matchingSend = op.matchingSend) :
      ex.MailsTo (ex.park program ex.iteration.current primitive next describe) :=
    mailsTo_park program hfree hstage primitive next hdescribe
  have hsame : ex.MailsTo ex := mailsTo_of_slots fun _ => rfl
  have hjoin (targets : List OperationId) (all : Bool) :
      ex.MailsTo (ex.joinTurn program ex.iteration.current next targets all).execution := by
    rw [joinTurn]
    split
    · exact hsame
    · exact hparks _ fun _ => ⟨rfl, rfl⟩
  have hresource (resource : ResourceId) (kind : StepKind) (primitive : Primitive σ) :
      ex.MailsTo
        (ex.resourceTurn program ex.iteration.current next resource kind primitive).execution := by
    rw [resourceTurn]
    split
    · exact hparks _ fun _ => ⟨rfl, rfl⟩
    · exact hsame
  cases request with
  | yield => exact hparks _ fun _ => ⟨rfl, rfl⟩
  | spawn name body =>
    exact mailsTo_enroll program hsettled hfree hid hstage name _ next fun _ => ⟨rfl, rfl⟩
  | join targets => exact hjoin targets true
  | joinAny targets =>
    simp only [callTurn]
    split
    · exact hgoesOn (fun _ => rfl) _
    · exact hjoin targets false
  | send target message =>
    simp only [callTurn]
    split
    · exact hparks _ fun _ => ⟨rfl, rfl⟩
    · exact hsame
  | receive events => exact hparks _ fun _ => ⟨rfl, rfl⟩
  | createResource => exact hgoesOn (fun _ => rfl) _
  | acquire resource => exact hresource resource _ _
  | release resource => exact hresource resource _ _
  | boolean => exact hsame
  | integer max => exact hsame
  | assert condition message =>
    simp only [callTurn]
    split
    · exact hgoesOn (fun _ => rfl) _
    · exact hsame
  | setMonitor monitor isHot =>
    simp only [callTurn]
    split
    · exact hgoesOn (fun _ => rfl) _
    · exact hsame
  | foreignCall thread owner => exact hsame

/-- What an action does to messages. -/
theorem mailsTo_actTurn (program : Program σ μ) (hsettled : ex.Settled)
    (hfree : ex.IsFree ex.iteration.current)
    (hid : ex.iteration.current.index < ex.iteration.operations.length) {state : σ} {reply : Reply}
    (hstage : ex.stage? ex.iteration.current = some (.running state reply)) (action : Action σ) :
    ex.MailsTo (ex.actTurn program ex.iteration.current action).execution := by
  have hidle (slot : Slot σ) (hslot : ex.slot? ex.iteration.current = some slot) : slot.IsIdle :=
    isIdle_of_stage? hstage (fun _ _ heq => by cases heq) hslot
  have hends : ex.MailsTo (ex.setStage ex.iteration.current .ended) := by
    refine mailsTo_of_changes rfl (Changes.setStage ex.iteration.current .ended ex).slot?_eq hidle
      (fun _ => rfl) fun slot hslot => .inl ⟨rfl, ?_⟩
    rw [hfree slot hslot]
    rfl
  cases action with
  | work next => exact mailsTo_reply rfl hfree (fun _ => rfl) hidle next _
  | call request next => exact mailsTo_callTurn program hsettled hfree hid hstage next request
  | finish =>
    exact mailsTo_of_changes rfl (((Changes.setStage ex.iteration.current .ended ex).trans
      (.updateOperation ex.iteration.current Operation.complete _)).slot?_eq) hidle (fun _ => rfl)
      fun _ _ => .inr ⟨rfl, rfl⟩
  | raise message => exact hends
  | giveUp => exact hends

end Turns

/-! ### Steps -/

/-- The memory of the program matters to no message. -/
theorem MailsTo.ofMemory {ex after : Execution γ σ μ} {memory : μ}
    (h : MailsTo { ex with memory } after) : ex.MailsTo after := by
  intro id new hnew
  rcases h id new hnew with hfresh | ⟨old, hold, hmails⟩
  · exact .inl hfresh
  refine .inr ⟨old, hold, ?_⟩
  cases hmails with
  | keeps h => exact .keeps h
  | moves hturn hidle hinbox hend => exact .moves hturn hidle hinbox hend
  | wakes hsends hawaits hinbox hsend hstatus hstage =>
    exact .wakes hsends hawaits hinbox hsend hstatus hstage
  | posts hsends hawaits hinbox hsend henabled hstage =>
    exact .posts hsends hawaits hinbox hsend henabled hstage
  | takes hturn hstage hfound haccepted hearlier hinbox hsend hstatus hruns =>
    exact .takes hturn hstage hfound haccepted hearlier hinbox hsend hstatus hruns
  | begins hstage hinbox hsend => exact .begins hstage hinbox hsend

/-- What a turn does to messages, before the iteration is asked. -/
theorem mailsTo_turn {program : Program σ μ} {ex : Execution γ σ μ} {turn : Turn γ σ μ}
    {journal : Journal σ} (hsettled : ex.Settled)
    (hin : ex.InOrder journal.pending ex.iteration.current) (hturn : ex.turn? program = some turn) :
    ex.MailsTo turn.execution := by
  obtain ⟨op, hop, henabled⟩ := hin.enabled
  have hfree : ex.IsFree ex.iteration.current := by
    intro slot hslot
    rw [(slot?_eq_some.mp hslot).1, Option.some.injEq] at hop
    rw [hop, henabled]
  obtain ⟨-, ⟨primitive, next, hstage, -, rfl⟩ | ⟨state, reply, hstage, rfl⟩⟩ := turn?_cases hturn
  · refine mailsTo_grantTurn hfree hstage fun child body hspawn => ?_
    subst hspawn
    exact hin.orderly.announced _ child ⟨body, next, hstage⟩
  · have hmoved : Settled { ex with memory := (program.resume ex.iteration.current state reply
        ex.memory).2 } := hsettled.of_same rfl rfl rfl rfl
    exact (mailsTo_actTurn program hmoved hfree (List.getElem?_eq_some_iff.mp hop).1 hstage
      _).ofMemory

/-- A primitive that is carried out asks for no value. -/
theorem grantTurn_ne_choice {ex mid : Execution γ σ μ} {id caller : OperationId}
    {primitive : Primitive σ} {next then' : σ} {query : Query} {wrap : query.Answer → Reply} :
    ex.grantTurn caller then' primitive ≠ .choice id next query wrap mid := by
  intro hturn
  cases primitive with
  | join targets all =>
    simp only [grantTurn] at hturn
    split at hturn <;> cases hturn
  | receive events =>
    simp only [grantTurn] at hturn
    split at hturn <;> cases hturn
  | acquire resource =>
    simp only [grantTurn] at hturn
    split at hturn
    · cases hturn
    · split at hturn <;> cases hturn
  | release resource =>
    simp only [grantTurn] at hturn
    split at hturn <;> cases hturn
  | _ => cases hturn

/-- A value is asked for by a body that runs, and nothing has changed but the memory. -/
theorem choice_of_turn? {program : Program σ μ} {ex mid : Execution γ σ μ} {journal : Journal σ}
    {id : OperationId} {next : σ} {query : Query} {wrap : query.Answer → Reply}
    (hsettled : ex.Settled) (hin : ex.InOrder journal.pending ex.iteration.current)
    (hturn : ex.turn? program = some (.choice id next query wrap mid)) :
    id = ex.iteration.current ∧ (∃ memory, mid = { ex with memory }) ∧
      ∃ state reply, ex.stage? ex.iteration.current = some (.running state reply) := by
  obtain ⟨memory, htakes⟩ := exists_takes hsettled hin hturn
  generalize ex.action? program = action at htakes
  generalize ex.call? program journal = call at htakes
  cases htakes with
  | asks =>
    refine ⟨rfl, ⟨memory, rfl⟩, ?_⟩
    obtain ⟨-, ⟨primitive, next, -, -, hgrant⟩ | ⟨state, reply, hstage, -⟩⟩ := turn?_cases hturn
    · exact absurd hgrant.symm grantTurn_ne_choice
    · exact ⟨state, reply, hstage⟩

/-- An operation that is enabled because its wait is over keeps what concerns messages. -/
theorem keeps_enableIfReady (isCompleted : OperationId → Bool) (slot : Slot σ) :
    slot.Keeps { slot with operation := slot.operation.enableIfReady isCompleted } := by
  have hsend : (slot.operation.enableIfReady isCompleted).matchingSend =
      slot.operation.matchingSend := by
    rw [Operation.enableIfReady]
    split <;> rfl
  refine ⟨rfl, hsend, rfl, fun henabled => ?_, Operation.isCompleted_enableIfReady _ _⟩
  rcases slot.operation.enableIfReady_cases isCompleted with ⟨-, hready, -⟩ | hsame
  · exact hready
  · dsimp only
    rw [hsame, henabled]

/-- Whatever an iteration makes of its operations when it is asked, messages stay. -/
theorem keeps_of_iteration {ex : Execution γ σ μ} {it : Iteration γ}
    (hoperations : it.operations = ex.iteration.operations ∨
      it.operations = ex.iteration.enableWaiting.operations) {id : OperationId} {new : Slot σ}
    (hnew : { ex with iteration := it }.slot? id = some new) :
    ∃ old, ex.slot? id = some old ∧ old.Keeps new := by
  obtain ⟨hop, hstage, hinbox⟩ := slot?_eq_some.mp hnew
  rcases hoperations with hsame | hready
  · rw [Iteration.operation?, hsame] at hop
    exact ⟨new, slot?_eq_some.mpr ⟨hop, hstage, hinbox⟩, .refl new⟩
  · have hwaiting : ex.iteration.enableWaiting.operation? id = some new.operation := by
      rw [← hop, Iteration.operation?, Iteration.operation?, hready]
    rw [Iteration.operation?_enableWaiting, Option.map_eq_some_iff] at hwaiting
    obtain ⟨old, hold, hnew⟩ := hwaiting
    refine ⟨⟨old, new.stage, new.inbox⟩, slot?_eq_some.mpr ⟨hold, hstage, hinbox⟩, ?_⟩
    have hkeeps := keeps_enableIfReady ex.iteration.isCompleted ⟨old, new.stage, new.inbox⟩
    dsimp only at hkeeps
    rwa [hnew] at hkeeps

variable [RandomSource γ]

/-- What a step does to messages. -/
theorem mailsTo_step {program : Program σ μ} {ex after : Execution γ σ μ} {journal : Journal σ}
    (hsettled : ex.Settled) (hin : ex.InOrder journal.pending ex.iteration.current)
    (hstep : ex.step program = some after) :
    ex.MailsTo after := by
  rw [step_eq_settle, Option.map_eq_some_iff] at hstep
  obtain ⟨turn, hturn, rfl⟩ := hstep
  have hmails := mailsTo_turn hsettled hin hturn
  have hasked {it : Iteration γ}
      (hoperations : it.operations = turn.execution.iteration.operations ∨
        it.operations = turn.execution.iteration.enableWaiting.operations) :
      ex.MailsTo { turn.execution with iteration := it } := by
    intro id new hnew
    obtain ⟨between, hbetween, hkeeps⟩ := keeps_of_iteration hoperations hnew
    rcases hmails id between hbetween with ⟨hnone, hinbox, hsend⟩ | ⟨old, hold, hold'⟩
    · exact .inl ⟨hnone, hkeeps.inbox.trans hinbox, hkeeps.matchingSend.trans hsend⟩
    · exact .inr ⟨old, hold, hold'.keepsTo hkeeps⟩
  cases turn with
  | quiet mid => exact hmails
  | point mid =>
    have hkept := mid.iteration.operations_scheduleNext
    rw [Turn.settle, reschedule]
    split <;> next heq =>
      rw [heq] at hkept
      exact hasked hkept
  | choice id next query wrap mid =>
    obtain ⟨rfl, ⟨memory, rfl⟩, state, reply, hstage⟩ := choice_of_turn? hsettled hin hturn
    have hkept := ex.iteration.operations_choose query
    rw [Turn.settle, choose]
    split
    · next value it heq =>
      have hoperations : it.operations = ex.iteration.operations := by
        rw [heq] at hkept
        exact hkept
      obtain ⟨op, hop, henabled⟩ := hin.enabled
      refine mailsTo_reply rfl (fun slot hslot => ?_) (fun other => ?_) (fun _ hslot =>
        isIdle_of_stage? hstage (fun _ _ heq => by cases heq) hslot) next _
      · rw [(slot?_eq_some.mp hslot).1, Option.some.injEq] at hop
        rw [hop, henabled]
      · simp only [slot?, stage?, Iteration.operation?, hoperations]
    all_goals
      next heq =>
        rw [heq] at hkept
        exact hasked (.inl hkept)
  | bug kind message mid =>
    exact hasked (.inl (Iteration.sameTable_reportBug kind message mid.iteration).operations)
  | fault cause mid => exact hasked (.inl rfl)

end Execution

end ScheduleExplorer
