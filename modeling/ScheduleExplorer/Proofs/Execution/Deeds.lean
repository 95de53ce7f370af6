import ScheduleExplorer.Proofs.Execution.Letters
import ScheduleExplorer.Proofs.Execution.Interchange

/-!
# Deeds of executions

`Outlook.act?` says what the body of an operation does next, from the outlook alone: a deed, a
question, or a failure. `Execution.rel_act?` says that this is what a turn of an execution does,
whatever the iteration: the outlook after the turn is the outlook after the deed.
-/

namespace ScheduleExplorer

variable {γ σ μ : Type}

/-- What an operation does next. -/
inductive Act (σ μ : Type) where
  | does (deed : Deed σ μ)
  /-- The body asks for a value. -/
  | asks (next : σ) (query : Query) (wrap : query.Answer → Reply) (memory : μ → μ)
  /-- The iteration is ended. -/
  | fails

namespace Outlook

/-- A body goes on with a reply, and this is all. -/
def replies (memory : μ → μ) (next : σ) (reply : Reply) : Act σ μ :=
  .does { move := .runs next reply, memory }

/-- A body announces its next step, and this is all. -/
def announces (memory : μ → μ) (primitive : Primitive σ) (next : σ) : Act σ μ :=
  .does { move := .parks primitive next, memory }

/-- What a primitive does when its turn has come. -/
def grantAct (id : OperationId) (next : σ) (inbox : Inbox) (o : Outlook σ μ) :
    Primitive σ → Act σ μ
  | .start | .resume => replies (fun memory => memory) next .done
  | .spawn child body =>
    .does { move := .runs next (.operation child), reach := .begins child body }
  | .join targets all =>
    if o.isJoined targets all then replies (fun memory => memory) next .done
    else .does { move := .joins targets all next }
  | .send target message =>
    .does { move := .runs next .done, reach := .posts target ⟨message, id, 0⟩ }
  | .receive events =>
    match inbox.take? events with
    | some (envelope, rest) => .does { move := .takes rest next (.message envelope.message) }
    | none => .does { move := .awaits events }
  | .acquire resource =>
    match o.holder? resource with
    | none => .does { move := .runs next .done, reach := .holds resource id }
    | some holder => if holder = id then .fails else .does { move := .queues resource }
  | .release resource =>
    if o.holder? resource = some id then
      .does { move := .runs next .done, reach := .frees resource }
    else .fails

/-- What a join does. -/
def joinAct (memory : μ → μ) (next : σ) (targets : List OperationId) (all : Bool)
    (o : Outlook σ μ) : Act σ μ :=
  if targets.all fun target => target.index < o.size then announces memory (.join targets all) next
  else .fails

/-- What a call on a resource does. -/
def resourceAct (memory : μ → μ) (next : σ) (resource : ResourceId) (primitive : Primitive σ)
    (o : Outlook σ μ) : Act σ μ :=
  if resource.index < o.holders.length then announces memory primitive next else .fails

/-- What a call does. -/
def callAct (memory : μ → μ) (next : σ) (o : Outlook σ μ) : Request σ → Act σ μ
  | .yield => announces memory .resume next
  | .spawn name body =>
    .does { move := .parks (.spawn ⟨o.size⟩ body) next, reach := .enrolls name, memory }
  | .join targets => o.joinAct memory next targets true
  | .joinAny targets =>
    if targets.isEmpty then replies memory next .done else o.joinAct memory next targets false
  | .send target message =>
    if target.index < o.size then announces memory (.send target message) next else .fails
  | .receive events => announces memory (.receive events) next
  | .createResource =>
    .does { move := .runs next (.resource ⟨o.holders.length⟩), reach := .creates, memory }
  | .acquire resource => o.resourceAct memory next resource (.acquire resource)
  | .release resource => o.resourceAct memory next resource (.release resource)
  | .boolean => .asks next (.boolean 2) .boolean memory
  | .integer max => .asks next (.integer max) .integer memory
  | .assert condition _ => if condition then replies memory next .done else .fails
  | .setMonitor monitor _ => if o.knows monitor then replies memory next .done else .fails
  | .foreignCall .. => .fails

/-- What an action does. -/
def actionAct (memory : μ → μ) (o : Outlook σ μ) : Action σ → Act σ μ
  | .work next => replies memory next .done
  | .call request next => o.callAct memory next request
  | .finish => .does { move := .finishes, memory }
  | .raise _ => .fails
  | .giveUp => .does { move := .leaves, memory }

/-- What an operation does next, if it is enabled and its body has not ended. -/
def act? (program : Program σ μ) (id : OperationId) (o : Outlook σ μ) : Option (Act σ μ) :=
  (o.slots id).bind fun slot =>
    if slot.operation.isEnabled then
      match slot.stage with
      | .parked primitive next => some (o.grantAct id next slot.inbox primitive)
      | .running state reply =>
        some (o.actionAct (fun memory => (program.resume id state reply memory).2)
          (program.resume id state reply o.memory).1)
      | _ => none
    else none

end Outlook

/-- A turn does what an operation does next. -/
inductive Turn.Shows (id : OperationId) (o : Outlook σ μ) : Turn γ σ μ → Act σ μ → Prop where
  | quiet {ex : Execution γ σ μ} {deed : Deed σ μ} (hquiet : deed.move.isPoint = false)
      (h : ex.outlook = o.perform id deed) : Shows id o (.quiet ex) (.does deed)
  | point {ex : Execution γ σ μ} {deed : Deed σ μ} (hpoint : deed.move.isPoint = true)
      (h : ex.outlook = o.perform id deed) : Shows id o (.point ex) (.does deed)
  | choice {ex : Execution γ σ μ} {next : σ} {query : Query} {wrap : query.Answer → Reply}
      {memory : μ → μ} (h : ex.outlook = o.remember memory) :
      Shows id o (.choice id next query wrap ex) (.asks next query wrap memory)
  | bug {kind : BugKind} {message : String} {ex : Execution γ σ μ} :
      Shows id o (.bug kind message ex) .fails
  | fault {cause : Fault} {ex : Execution γ σ μ} : Shows id o (.fault cause ex) .fails

/-! ### Outlooks of executions -/

namespace Operation

variable (op : Operation)

/-- Bare operations are woken by a message as operations are. -/
theorem bare_rouse (event : EventType) (sendStep : Nat) :
    (if op.awaitsEvent event then op.receive sendStep else op).bare = op.bare.rouse event :=
  apply_ite bare _ _ _

/-- Bare operations are woken by a release as operations are. -/
theorem bare_wakeOnRelease (resource : ResourceId) :
    (op.wakeOnRelease resource).bare = op.bare.wakeOnRelease resource :=
  apply_ite bare _ _ _

/-- Bare operations are woken by completions as operations are. -/
theorem bare_enableIfReady (isCompleted : OperationId → Bool) :
    (op.enableIfReady isCompleted).bare = op.bare.enableIfReady isCompleted :=
  apply_ite bare _ _ _

/-- Bare operations wait for other operations as operations do. -/
theorem bare_waitTasks (ids : List OperationId) (all : Bool) :
    (op.waitTasks ids all).bare = op.bare.waitTasks ids all :=
  apply_ite bare _ _ _

/-- Bare operations wait for messages as operations do. -/
theorem bare_waitEvents (events : List EventType) :
    (op.waitEvents events).bare = op.bare.waitEvents events :=
  apply_ite bare _ _ _

/-- Bare operations wait for resources as operations do. -/
theorem bare_waitResource (resource : ResourceId) :
    (op.waitResource resource).bare = op.bare.waitResource resource :=
  apply_ite bare _ _ _

end Operation

/-- What is taken from a bare inbox. -/
theorem Inbox.take?_map_bare (events : List EventType) (inbox : Inbox) :
    Inbox.take? events (inbox.map Envelope.bare) =
      (inbox.take? events).map fun taken => (taken.1.bare, taken.2.map Envelope.bare) := by
  induction inbox with
  | nil => rfl
  | cons envelope rest ih =>
    have haccepted : envelope.bare.isAccepted events = envelope.isAccepted events := rfl
    rw [List.map_cons, take?, take?, haccepted]
    split
    · rfl
    · rw [ih, Option.map_map, Option.map_map]
      rfl

namespace Execution

variable {ex after : Execution γ σ μ} {id : OperationId}

/-- The outlook after a move. -/
theorem outlook_moved {move : Move σ} {f : Slot σ → Slot σ}
    (hslots : ∀ other, after.slot? other =
      (ex.slot? other).map fun slot => if other = id then f slot else slot)
    (hf : ∀ slot, ex.slot? id = some slot → (f slot).bare = move.apply id slot.bare)
    (hsize : after.iteration.operations.length = ex.iteration.operations.length)
    (hholders : after.holders = ex.holders)
    (hknows : after.iteration.monitors.isKnown = ex.iteration.monitors.isKnown)
    (hmemory : after.memory = ex.memory) : after.outlook = ex.outlook.moved id move := by
  apply Outlook.ext
  · exact hsize
  · funext other
    simp only [outlook, Outlook.moved, hslots, Option.map_map]
    cases hslot : ex.slot? other with
    | none => rfl
    | some slot =>
      by_cases hother : other = id
      · subst hother
        simp [hf slot hslot]
      · simp [hother]
  · exact hholders
  · exact hknows
  · exact hmemory

/-- In the outlook a reply lets the body run on. -/
theorem outlook_reply (next : σ) (reply : Reply) :
    (ex.reply id next reply).outlook = ex.outlook.moved id (.runs next reply) :=
  outlook_moved (slot?_reply id next reply) (fun _ _ => rfl) rfl rfl rfl rfl

/-- The outlook after something is reached. -/
theorem outlook_reached {reach : Reach σ} (hgrowth : reach.growth = 0)
    {f : OperationId → Slot σ → Slot σ}
    (hslots : ∀ other, after.slot? other = (ex.slot? other).map (f other))
    (hf : ∀ other slot, (f other slot).bare = reach.touch other slot.bare)
    (hsize : after.iteration.operations.length = ex.iteration.operations.length)
    (hholders : after.holders = reach.hold ex.holders)
    (hknows : after.iteration.monitors.isKnown = ex.iteration.monitors.isKnown)
    (hmemory : after.memory = ex.memory) : after.outlook = reach.apply ex.outlook := by
  apply Outlook.ext
  · simp [Reach.apply, outlook, hgrowth, hsize]
  · funext other
    simp only [outlook, Reach.apply, Reach.place_of_growth hgrowth, hslots, Option.map_map]
    congr 1
    funext slot
    exact hf other slot
  · exact hholders
  · exact hknows
  · exact hmemory

/-- In the outlook a spawn begins its child. -/
theorem outlook_begin (child : OperationId) (body : σ) :
    (ex.begin child body).outlook = (Reach.begins child body).apply ex.outlook := by
  apply outlook_reached rfl (((Changes.updateOperation child Operation.create ex).trans
    (.setStage child (.parked .start body) _)).slot?_eq)
  · intro other slot
    by_cases hother : other = child
    · rw [if_pos hother, Reach.touch, if_pos hother]
      rfl
    · rw [if_neg hother, Reach.touch, if_neg hother]
  · exact List.length_modify ..
  · rfl
  · rfl
  · rfl

/-- The slots after a message is delivered. -/
theorem slot?_deliver (sender target : OperationId) (message : Message) (other : OperationId) :
    (ex.deliver sender target message).slot? other = (ex.slot? other).map fun slot =>
      if other = target then
        { slot with
          operation := if slot.operation.awaitsEvent message.event then
            slot.operation.receive (ex.iteration.operationSteps - 1) else slot.operation
          inbox := slot.inbox ++ [⟨message, sender, ex.iteration.operationSteps - 1⟩] }
      else slot := by
  have hdelivered : ex.Changes target (fun slot =>
      { slot with
        operation := if slot.operation.awaitsEvent message.event then
          slot.operation.receive (ex.iteration.operationSteps - 1) else slot.operation
        inbox := slot.inbox ++ [⟨message, sender, ex.iteration.operationSteps - 1⟩] })
      (ex.deliver sender target message) :=
    (Changes.modifyInbox target
      (· ++ [(⟨message, sender, ex.iteration.operationSteps - 1⟩ : Envelope)]) ex).trans
      (.updateOperation target (fun op => if op.awaitsEvent message.event then
        op.receive (ex.iteration.operationSteps - 1) else op) _)
  exact hdelivered.slot?_eq other

/-- In the outlook a send posts its envelope; the position of the send is not seen. -/
theorem outlook_deliver (sender target : OperationId) (message : Message) :
    (ex.deliver sender target message).outlook =
      (Reach.posts target ⟨message, sender, 0⟩).apply ex.outlook := by
  apply outlook_reached rfl (slot?_deliver sender target message)
  · intro other slot
    by_cases hother : other = target
    · rw [if_pos hother, Reach.touch, if_pos hother, Slot.bare, Slot.bare, Operation.bare_rouse,
        List.map_append]
      rfl
    · rw [if_neg hother, Reach.touch, if_neg hother]
  · exact List.length_modify ..
  · rfl
  · rfl
  · rfl

/-- In the outlook a release frees its resource and wakes those that wait for it. -/
theorem outlook_free (resource : ResourceId) :
    (ex.free resource).outlook = (Reach.frees resource).apply ex.outlook := by
  apply outlook_reached rfl (slot?_free resource)
  · intro _ slot
    rw [Slot.bare, Operation.bare_wakeOnRelease]
    rfl
  · exact List.length_map ..
  · rfl
  · rfl
  · rfl

/-- In the outlook an acquisition gives the resource to its holder. -/
theorem outlook_setHolder (resource : ResourceId) (holder : OperationId) :
    (ex.setHolder resource (some holder)).outlook =
      (Reach.holds resource holder).apply ex.outlook := by
  apply outlook_reached (f := fun _ slot => slot) rfl
  · exact fun _ => Option.map_id'.symm
  · exact fun _ _ => rfl
  · rfl
  · rfl
  · rfl
  · rfl

/-- In the outlook a creation adds a resource that nobody holds. -/
theorem outlook_createResource :
    { ex with holders := ex.holders ++ [none] }.outlook =
      (Reach.creates : Reach σ).apply ex.outlook := by
  apply outlook_reached (f := fun _ slot => slot) rfl
  · exact fun _ => Option.map_id'.symm
  · exact fun _ _ => rfl
  · rfl
  · rfl
  · rfl
  · rfl

/-- In the outlook a registration adds an operation whose spawn is still parked. -/
theorem outlook_enroll (h : ex.Settled) (name : String) :
    (ex.enroll name).outlook = (Reach.enrolls name).apply ex.outlook := by
  apply Outlook.ext
  · simp [outlook, enroll, Iteration.register, Reach.apply, Reach.growth]
  · funext other
    change ((ex.enroll name).slot? other).map Slot.bare =
      if other.index = ex.iteration.operations.length then
        some ⟨Operation.new other name, .announced, []⟩
      else (ex.slot? other).map Slot.bare
    rw [slot?_enroll h]
    split <;> rfl
  · rfl
  · rfl
  · rfl

/-- The outlook after a message is taken. -/
theorem outlook_take (envelope : Envelope) (rest : Inbox) (next : σ) (reply : Reply) :
    (({ ex with inboxes := ex.inboxes.set id.index rest }.updateOperation id
      (Operation.receive envelope.sendStep)).reply id next reply).outlook =
        ex.outlook.moved id (.takes (rest.map Envelope.bare) next reply) := by
  rw [List.set_eq_modify]
  apply outlook_moved (((Changes.modifyInbox id (fun _ => rest) ex).trans
    (.updateOperation id (Operation.receive envelope.sendStep) _)).trans
    (.setStage id (.running next reply) _)).slot?_eq
  · exact fun _ _ => rfl
  · exact List.length_modify ..
  · rfl
  · rfl
  · rfl

/-- The outlook after the operation whose turn it is has announced its next step. -/
theorem outlook_park (hcurrent : ex.iteration.current = id) (program : Program σ μ)
    (primitive : Primitive σ) (next : σ) {describe : Operation → Operation}
    (hdescribe : ∀ op, (describe op).bare = primitive.announce id op.bare) :
    (ex.park program id primitive next describe).outlook =
      ex.outlook.moved id (.parks primitive next) := by
  subst hcurrent
  apply outlook_moved (f := fun slot => { slot with
    operation := (describe slot.operation).recordState (ex.hashes program)
    stage := .parked primitive next }) (slot?_park program primitive next describe)
  · intro slot _
    have hop := hdescribe slot.operation
    simp only [Slot.bare, Move.apply, ← hop]
    rfl
  · simp [park, mapIteration, Iteration.recordState, Iteration.update, setStage]
  · rfl
  · rfl
  · rfl

/-! ### Turns -/

/-- A body that goes on with a reply. -/
theorem shows_reply {o : Outlook σ μ} {reach : Reach σ} {memory : μ → μ}
    (h : ex.outlook = (reach.apply o).remember memory) (next : σ) (reply : Reply) :
    Turn.Shows id o (.quiet (ex.reply id next reply))
      (.does { move := .runs next reply, reach, memory }) := by
  apply Turn.Shows.quiet rfl
  rw [outlook_reply, h]
  rfl

/-- A body that announces its next step. -/
theorem shows_park {o : Outlook σ μ} {reach : Reach σ} {memory : μ → μ}
    (h : ex.outlook = (reach.apply o).remember memory) (hcurrent : ex.iteration.current = id)
    (program : Program σ μ) (primitive : Primitive σ) (next : σ) {describe : Operation → Operation}
    (hdescribe : ∀ op, (describe op).bare = primitive.announce id op.bare) :
    Turn.Shows id o (.point (ex.park program id primitive next describe))
      (.does { move := .parks primitive next, reach, memory }) := by
  apply Turn.Shows.point rfl
  rw [outlook_park hcurrent program primitive next hdescribe, h]
  rfl

/-- A wait that begins. -/
theorem shows_wait {o : Outlook σ μ} {move : Move σ} (ho : ex.outlook = o)
    (hpoint : move.isPoint = true) {f : Slot σ → Slot σ}
    (hslots : ∀ other, after.slot? other =
      (ex.slot? other).map fun slot => if other = id then f slot else slot)
    (hf : ∀ slot, ex.slot? id = some slot → (f slot).bare = move.apply id slot.bare)
    (hsize : after.iteration.operations.length = ex.iteration.operations.length)
    (hholders : after.holders = ex.holders)
    (hknows : after.iteration.monitors.isKnown = ex.iteration.monitors.isKnown)
    (hmemory : after.memory = ex.memory) :
    Turn.Shows id o (.point after) (.does { move }) := by
  subst ho
  apply Turn.Shows.point hpoint
  rw [outlook_moved hslots hf hsize hholders hknows hmemory, Outlook.perform, Reach.apply_nothing]
  rfl

/-- Who has completed, as the outlook shows it. -/
theorem isCompleted_outlook (h : ex.Settled) : ex.outlook.isCompleted = ex.iteration.isCompleted := by
  funext id
  change ((ex.slot? id).map Slot.bare).any _ = (ex.iteration.operation? id).any _
  cases hop : ex.iteration.operation? id with
  | none =>
    have hslot : ex.slot? id = none := by
      rw [slot?, hop]
      rfl
    rw [hslot]
    rfl
  | some op =>
    obtain ⟨slot, hslot, rfl⟩ := h.exists_slot hop
    rw [hslot]
    rfl

/-- Whether a join is over, as the outlook shows it. -/
theorem isJoined_outlook (h : ex.Settled) (targets : List OperationId) (all : Bool) :
    ex.outlook.isJoined targets all = ex.isJoined targets all := by
  rw [Outlook.isJoined, isCompleted_outlook h, joinIsOver, isJoined]

/-- Which operations are known. -/
theorem isKnownOperation_eq (id : OperationId) :
    ex.isKnownOperation id = decide (id.index < ex.iteration.operations.length) := by
  rw [isKnownOperation, Iteration.operation?, Bool.eq_iff_iff]
  simp

/-- A primitive does in its turn what the outlook says. -/
theorem shows_grantTurn (h : ex.Settled) {slot : Slot σ} (hslot : ex.slot? id = some slot)
    {primitive : Primitive σ} {next : σ} (hstage : slot.stage = .parked primitive next) :
    Turn.Shows id ex.outlook (ex.grantTurn id next primitive)
      (ex.outlook.grantAct id next slot.bare.inbox primitive) := by
  have hstays : ex.outlook =
      ((Reach.nothing : Reach σ).apply ex.outlook).remember fun memory => memory := by
    rw [Reach.apply_nothing]
    rfl
  cases primitive with
  | start => exact shows_reply hstays next _
  | resume => exact shows_reply hstays next _
  | spawn child body => exact shows_reply (outlook_begin child body) next _
  | join targets all =>
    rw [grantTurn, Outlook.grantAct, isJoined_outlook h]
    split
    · exact shows_reply hstays next _
    · apply shows_wait rfl rfl (((Changes.setStage id (.parked .resume next) ex).trans
        (.updateOperation id (Operation.waitTasks targets all) _)).slot?_eq)
      · intro slot _
        simp only [Slot.bare, Move.apply, Function.comp_apply, Operation.bare_waitTasks]
      · exact List.length_modify ..
      · rfl
      · rfl
      · rfl
  | send target message => exact shows_reply (outlook_deliver id target message) next _
  | receive events =>
    obtain ⟨-, -, hinbox⟩ := slot?_eq_some.mp hslot
    have htakes : slot.bare.inbox.take? events = (slot.inbox.take? events).map fun taken =>
        (taken.1.bare, taken.2.map Envelope.bare) := Inbox.take?_map_bare events slot.inbox
    simp only [grantTurn, Outlook.grantAct, takeMessage?, hinbox, htakes, Option.bind_eq_bind,
      Option.bind_some]
    cases htake : slot.inbox.take? events with
    | none =>
      apply shows_wait rfl rfl ((Changes.updateOperation id (Operation.waitEvents events)
        ex).slot?_eq)
      · intro slot _
        simp only [Slot.bare, Move.apply, Operation.bare_waitEvents]
      · exact List.length_modify ..
      · rfl
      · rfl
      · rfl
    | some taken =>
      obtain ⟨envelope, rest⟩ := taken
      apply Turn.Shows.quiet rfl
      rw [Outlook.perform, Reach.apply_nothing]
      exact outlook_take envelope rest next _
  | acquire resource =>
    have hholder : ex.outlook.holder? resource = ex.holder? resource := rfl
    rw [grantTurn, Outlook.grantAct, hholder]
    cases ex.holder? resource with
    | none => exact shows_reply (outlook_setHolder resource id) next _
    | some holder =>
      dsimp only
      split
      · exact .bug
      · apply shows_wait rfl rfl ((Changes.updateOperation id (Operation.waitResource resource)
          ex).slot?_eq)
        · intro slot _
          simp only [Slot.bare, Move.apply, Operation.bare_waitResource]
        · exact List.length_modify ..
        · rfl
        · rfl
        · rfl
  | release resource =>
    have hholder : ex.outlook.holder? resource = ex.holder? resource := rfl
    rw [grantTurn, Outlook.grantAct, hholder]
    split
    · exact shows_reply (outlook_free resource) next _
    · exact .bug

/-- A call does in its turn what the outlook says. -/
theorem shows_callTurn (h : ex.Settled) {o : Outlook σ μ} {memory : μ → μ}
    (ho : ex.outlook = o.remember memory) (hcurrent : ex.iteration.current = id)
    (program : Program σ μ) (next : σ) (request : Request σ) :
    Turn.Shows id o (ex.callTurn program id next request) (o.callAct memory next request) := by
  have hstays : ex.outlook = ((Reach.nothing : Reach σ).apply o).remember memory := by
    rw [Reach.apply_nothing, ho]
  have hsize : ex.iteration.operations.length = o.size := congrArg Outlook.size ho
  have hholders : ex.holders = o.holders := congrArg Outlook.holders ho
  have hjoin (targets : List OperationId) (all : Bool) :
      Turn.Shows id o (ex.joinTurn program id next targets all)
        (o.joinAct memory next targets all) := by
    rw [joinTurn, Outlook.joinAct]
    cases hfind : targets.find? fun target => !ex.isKnownOperation target with
    | none =>
      have hknown : (targets.all fun target => decide (target.index < o.size)) = true := by
        simpa [isKnownOperation_eq, hsize] using hfind
      rw [if_pos hknown]
      exact shows_park hstays hcurrent program _ next fun _ => rfl
    | some target =>
      have hunknown : (targets.all fun target => decide (target.index < o.size)) = false := by
        rw [List.all_eq_false]
        refine ⟨target, List.mem_of_find?_eq_some hfind, ?_⟩
        have htarget := List.find?_some hfind
        simpa [isKnownOperation_eq, hsize] using htarget
      rw [hunknown, if_neg Bool.false_ne_true]
      exact .fault
  have hresource (resource : ResourceId) (kind : StepKind) (primitive : Primitive σ)
      (hannounce : ∀ op : Operation,
        (op.announce kind .resource resource.index).bare = primitive.announce id op.bare) :
      Turn.Shows id o (ex.resourceTurn program id next resource kind primitive)
        (o.resourceAct memory next resource primitive) := by
    simp only [resourceTurn, Outlook.resourceAct, isKnownResource, hholders, decide_eq_true_eq]
    split
    · exact shows_park hstays hcurrent program _ next hannounce
    · exact .fault
  cases request with
  | yield => exact shows_park hstays hcurrent program .resume next fun _ => rfl
  | spawn name body =>
    have henrolled : (ex.enroll name).outlook =
        ((Reach.enrolls name : Reach σ).apply o).remember memory := by
      rw [outlook_enroll h, ho]
      rfl
    simp only [callTurn, Outlook.callAct, ← hsize]
    exact shows_park henrolled hcurrent program _ next fun _ => rfl
  | join targets => exact hjoin targets true
  | joinAny targets =>
    rw [callTurn, Outlook.callAct]
    split
    · exact shows_reply hstays next _
    · exact hjoin targets false
  | send target message =>
    simp only [callTurn, Outlook.callAct, isKnownOperation_eq, hsize, decide_eq_true_eq]
    split
    · exact shows_park hstays hcurrent program _ next fun _ => rfl
    · exact .fault
  | receive events => exact shows_park hstays hcurrent program _ next fun _ => rfl
  | createResource =>
    simp only [callTurn, Outlook.callAct, ← hholders]
    apply shows_reply
    rw [outlook_createResource, ho]
    rfl
  | acquire resource => exact hresource resource .acquire (.acquire resource) fun _ => rfl
  | release resource => exact hresource resource .release (.release resource) fun _ => rfl
  | boolean => exact .choice ho
  | integer max => exact .choice ho
  | assert condition message =>
    rw [callTurn, Outlook.callAct]
    split
    · exact shows_reply hstays next _
    · exact .bug
  | setMonitor monitor isHot =>
    have hknows : ex.iteration.monitors.isKnown monitor = o.knows monitor :=
      congrFun (congrArg Outlook.knows ho) monitor
    rw [callTurn, Outlook.callAct, hknows]
    split
    · apply shows_reply
      rw [← hstays]
      apply Outlook.ext <;> try rfl
      funext other
      simp [outlook, mapIteration, Monitors.isKnown, Monitors.set]
    · exact .fault
  | foreignCall thread owner => exact .bug

/-- An action does in its turn what the outlook says. -/
theorem shows_actTurn (h : ex.Settled) {o : Outlook σ μ} {memory : μ → μ}
    (ho : ex.outlook = o.remember memory) (hcurrent : ex.iteration.current = id)
    (program : Program σ μ) (action : Action σ) :
    Turn.Shows id o (ex.actTurn program id action) (o.actionAct memory action) := by
  have hstays : ex.outlook = ((Reach.nothing : Reach σ).apply o).remember memory := by
    rw [Reach.apply_nothing, ho]
  cases action with
  | work next => exact shows_reply hstays next _
  | call request next => exact shows_callTurn h ho hcurrent program next request
  | finish =>
    have hmoved : ((ex.setStage id .ended).updateOperation id Operation.complete).outlook =
        ex.outlook.moved id .finishes :=
      outlook_moved (((Changes.setStage id .ended ex).trans
        (.updateOperation id Operation.complete _)).slot?_eq) (fun _ _ => rfl)
        (List.length_modify ..) rfl rfl rfl
    apply Turn.Shows.point rfl
    rw [hmoved, hstays]
    rfl
  | raise message => exact .bug
  | giveUp =>
    have hmoved : (ex.setStage id .ended).outlook = ex.outlook.moved id .leaves :=
      outlook_moved (Changes.setStage id .ended ex).slot?_eq (fun _ _ => rfl) rfl rfl rfl rfl
    apply Turn.Shows.quiet rfl
    rw [hmoved, hstays]
    rfl

/-- The turn of an execution does what its outlook says. -/
theorem rel_act? (h : ex.Settled) (hrunning : ex.iteration.isRunning = true)
    (program : Program σ μ) :
    Option.Rel (Turn.Shows ex.iteration.current ex.outlook) (ex.turn? program)
      (ex.outlook.act? program ex.iteration.current) := by
  have hslots : ex.outlook.slots ex.iteration.current =
    (ex.slot? ex.iteration.current).map Slot.bare := rfl
  simp only [turn?, if_pos hrunning, Outlook.act?, hslots]
  cases hslot : ex.slot? ex.iteration.current with
  | none =>
    have hstage : ex.stage? ex.iteration.current = none := by
      rw [Option.eq_none_iff_forall_ne_some]
      intro stage hstage
      obtain ⟨op, hop⟩ := h.exists_operation? hstage
      obtain ⟨slot, hsome, -⟩ := h.exists_slot hop
      cases hslot.symm.trans hsome
    rw [hstage]
    exact .none
  | some slot =>
    obtain ⟨hop, hstage, -⟩ := slot?_eq_some.mp hslot
    have henabled : slot.bare.operation.isEnabled = ex.isEnabled ex.iteration.current := by
      rw [isEnabled, hop]
      rfl
    have hbare : slot.bare.stage = slot.stage := rfl
    rw [hstage, Option.map_some, Option.bind_some, hbare, henabled]
    cases hbody : slot.stage with
    | announced =>
      dsimp only
      rw [ite_self]
      exact .none
    | ended =>
      dsimp only
      rw [ite_self]
      exact .none
    | parked primitive next =>
      dsimp only
      split
      · exact .some (shows_grantTurn h hslot hbody)
      · exact .none
    | running state reply =>
      have hfree := (h.fits _ slot hslot).running state reply hbody
      rw [if_pos (by rw [← henabled]; exact Status.isEnabled_iff.mpr hfree)]
      have hmoved : Settled { ex with memory := (program.resume ex.iteration.current state reply
          ex.memory).2 } := h.of_same rfl rfl rfl rfl
      exact .some (shows_actTurn hmoved rfl rfl program _)

end Execution

end ScheduleExplorer
