import ScheduleExplorer.Proofs.Execution.Calls

/-!
# What a turn does

`Execution.Takes` lists all that an operation can do in its turn, given the action of its body and
the call that it makes or in which it waits: the call returns, a spawned body begins, the operation
is parked, blocks, ends, asks for a value or fails. Every invariant of a step is read off this list.

A call that returns has an effect on the inboxes and on the holders of the resources.
`Execution.Effect` says which.
-/

namespace ScheduleExplorer

variable {γ σ μ : Type}

namespace Execution

/-- The messages that wait for an operation. -/
def inbox (ex : Execution γ σ μ) (id : OperationId) : Inbox :=
  (ex.inboxes[id.index]?).getD []

/-! ### Inboxes and holders -/

section Views

variable {ex : Execution γ σ μ}

/-- Executions with the same inboxes. -/
theorem inbox_congr {after : Execution γ σ μ} (h : after.inboxes = ex.inboxes) :
    after.inbox = ex.inbox := by
  funext id
  rw [inbox, inbox, h]

/-- Executions with the same holders. -/
theorem holder?_congr {after : Execution γ σ μ} (h : after.holders = ex.holders) :
    after.holder? = ex.holder? := by
  funext resource
  rw [holder?, holder?, h]

/-- The inboxes after one is changed. -/
theorem inbox_modify {id : OperationId} (hid : id.index < ex.inboxes.length)
    (change : Inbox → Inbox) :
    { ex with inboxes := ex.inboxes.modify id.index change }.inbox =
      Function.update ex.inbox id (change (ex.inbox id)) := by
  funext other
  by_cases hother : other = id
  · subst hother
    rw [Function.update_self, inbox, inbox, List.getElem?_modify_eq,
      List.getElem?_eq_getElem hid]
    rfl
  · rw [Function.update_of_ne hother, inbox, inbox,
      List.getElem?_modify_ne _ _ (Changes.index_ne hother)]

/-- A new inbox is empty. -/
theorem inbox_enroll (name : String) : (ex.enroll name).inbox = ex.inbox := by
  funext id
  rw [inbox, inbox, enroll, getElem?_snoc]
  split
  · next heq =>
    rw [heq, List.getElem?_eq_none (Nat.le_refl _)]
    rfl
  · rfl

/-- Nobody holds a new resource. -/
theorem holder?_concat : { ex with holders := ex.holders ++ [none] }.holder? = ex.holder? := by
  funext resource
  rw [holder?, holder?, getElem?_snoc]
  split
  · next heq =>
    rw [heq, List.getElem?_eq_none (Nat.le_refl _)]
    rfl
  · rfl

/-- The holders after a resource is given away or freed. -/
theorem holder?_setHolder {resource : ResourceId} (hresource : resource.index < ex.holders.length)
    (holder : Option OperationId) :
    (ex.setHolder resource holder).holder? = Function.update ex.holder? resource holder := by
  funext other
  by_cases hother : other = resource
  · subst hother
    rw [Function.update_self, holder?, setHolder, List.getElem?_set_self hresource]
    rfl
  · have hne : resource.index ≠ other.index := by
      intro hindex
      cases resource
      cases other
      exact hother (congrArg ResourceId.mk hindex.symm)
    rw [Function.update_of_ne hother, holder?, holder?, setHolder, List.getElem?_set_ne hne]

/-- A resource that somebody holds is registered. -/
theorem index_lt_of_holder? {resource : ResourceId} {holder : OperationId}
    (h : ex.holder? resource = some holder) : resource.index < ex.holders.length := by
  rw [holder?, Option.join_eq_some_iff] at h
  exact (List.getElem?_eq_some_iff.mp h).1

/-- A message is taken from the operation's own inbox: the oldest one that is accepted. -/
theorem takeMessage?_eq_some {id : OperationId} {events : List EventType} {envelope : Envelope}
    {after : Execution γ σ μ} (h : ex.takeMessage? id events = some (envelope, after)) :
    ∃ earlier later, ex.inbox id = earlier ++ envelope :: later ∧
      envelope.isAccepted events = true ∧ (∀ other ∈ earlier, other.isAccepted events = false) ∧
      after = { ex with inboxes := ex.inboxes.modify id.index fun _ => earlier ++ later } ∧
      id.index < ex.inboxes.length := by
  obtain ⟨waiting, rest, hwaiting, htake, rfl⟩ := exists_of_takeMessage? h
  obtain ⟨earlier, later, rfl, rfl, haccepted, hearlier⟩ := Inbox.eq_append_of_take? htake
  refine ⟨earlier, later, ?_, haccepted, fun other hother => ?_, ?_, ?_⟩
  · rw [inbox, hwaiting, Option.getD_some]
  · exact Bool.eq_false_iff.mpr (hearlier other hother)
  · rw [List.set_eq_modify]
  · exact (List.getElem?_eq_some_iff.mp hwaiting).1

end Views

/-- What the return of a call means for the joined operations, the inboxes and the resources. -/
inductive Effect (ex after : Execution γ σ μ) : Option (Return σ) → Prop where
  /-- No call returns, or one that touches neither. -/
  | silent {call : Option (Return σ)} (hcall : ∀ done ∈ call, done.request.isLocal = true)
      (hinbox : after.inbox = ex.inbox) (hholder : after.holder? = ex.holder?) : Effect ex after call
  | joined {caller : OperationId} {request : Request σ} {reply : Reply}
      {targets : List OperationId} {all : Bool} (hjoin : request.join? = some (targets, all))
      (hover : targets ≠ [] → after.isJoined targets all = true)
      (hinbox : after.inbox = ex.inbox) (hholder : after.holder? = ex.holder?) :
      Effect ex after (some ⟨caller, request, reply⟩)
  | sent {caller target : OperationId} {message : Message} {reply : Reply} (sendStep : Nat)
      (hinbox : after.inbox =
        Function.update ex.inbox target (ex.inbox target ++ [⟨message, caller, sendStep⟩]))
      (hholder : after.holder? = ex.holder?) :
      Effect ex after (some ⟨caller, .send target message, reply⟩)
  | received {caller : OperationId} {events : List EventType} {taken : Envelope}
      {earlier later : Inbox} (hfound : ex.inbox caller = earlier ++ taken :: later)
      (haccepted : taken.isAccepted events = true)
      (hearlier : ∀ other ∈ earlier, other.isAccepted events = false)
      (hinbox : after.inbox = Function.update ex.inbox caller (earlier ++ later))
      (hholder : after.holder? = ex.holder?) :
      Effect ex after (some ⟨caller, .receive events, .message taken.message⟩)
  | acquired {caller : OperationId} {resource : ResourceId} {reply : Reply}
      (hfree : ex.holder? resource = none) (hinbox : after.inbox = ex.inbox)
      (hholder : after.holder? = Function.update ex.holder? resource (some caller)) :
      Effect ex after (some ⟨caller, .acquire resource, reply⟩)
  | released {caller : OperationId} {resource : ResourceId} {reply : Reply}
      (hheld : ex.holder? resource = some caller) (hinbox : after.inbox = ex.inbox)
      (hholder : after.holder? = Function.update ex.holder? resource none) :
      Effect ex after (some ⟨caller, .release resource, reply⟩)

/-- What an operation does in its turn, given the action that its body takes, if it runs, and the
call that it makes or in which it waits. -/
inductive Takes (program : Program σ μ) (id : OperationId) (ex : Execution γ σ μ) :
    Option (Action σ) → Option (Request σ) → Turn γ σ μ → Prop where
  /-- The call returns, or the body goes on without one. -/
  | replies {action : Option (Action σ)} {call : Option (Request σ)} {between : Execution γ σ μ}
      {next : σ} {reply : Reply} (hwakes : ex.Wakes between)
      (heffect : ex.Effect (between.reply id next reply)
        (call.map fun request => ⟨id, request, reply⟩)) :
      Takes program id ex action call (.quiet (between.reply id next reply))
  /-- A spawn returns, and the spawned body may begin. -/
  | spawns {action : Option (Action σ)} {name : String} {child : OperationId} {body next : σ}
      (hstage : ex.stage? id = some (.parked (.spawn child body) next)) :
      Takes program id ex action (some (.spawn name body))
        (.quiet ((ex.begin child body).reply id next (.operation child)))
  /-- A spawn announces itself and the operation that it registers. -/
  | enrolls {action : Option (Action σ)} {name : String} {body next : σ}
      {describe : Operation → Operation}
      (hdescribe : ∀ op, (describe op).status = op.status) :
      Takes program id ex action (some (.spawn name body))
        (.point ((ex.enroll name).park program id
          (.spawn ⟨ex.iteration.operations.length⟩ body) next describe))
  /-- Any other call announces itself. -/
  | parks {action : Option (Action σ)} {request : Request σ} {primitive : Primitive σ} {next : σ}
      {describe : Operation → Operation} (hdescribe : ∀ op, (describe op).status = op.status)
      (hcarries : ∀ isCompleted op, primitive.Carries isCompleted op (some request))
      (hspawn : ∀ child body, primitive ≠ .spawn child body)
      (hknown : primitive.IsKnown ex.iteration.operations.length ex.holders.length) :
      Takes program id ex action (some request) (.point (ex.park program id primitive next describe))
  /-- A join blocks. -/
  | waits {action : Option (Action σ)} {request : Request σ} {targets : List OperationId}
      {all : Bool} {next : σ} (hjoin : request.join? = some (targets, all)) :
      Takes program id ex action (some request)
        (.point ((ex.setStage id (.parked .resume next)).updateOperation id
          (Operation.waitTasks targets all)))
  /-- A receive or an acquire blocks. -/
  | blocks {action : Option (Action σ)} {request : Request σ} {primitive : Primitive σ} {next : σ}
      {wait : Operation → Operation} (hstage : ex.stage? id = some (.parked primitive next))
      (hcarries : ∀ isCompleted op, primitive.Carries isCompleted op (some request))
      (hspawn : ∀ child body, primitive ≠ .spawn child body) :
      Takes program id ex action (some request) (.point (ex.updateOperation id wait))
  /-- The body returns. -/
  | finishes {action : Option (Action σ)} : Takes program id ex action none
      (.point ((ex.setStage id .ended).updateOperation id Operation.complete))
  /-- The body gives up. -/
  | leaves : Takes program id ex (some .giveUp) none (.quiet (ex.setStage id .ended))
  | asks {action : Option (Action σ)} {request : Request σ} {next : σ} {query : Query}
      {wrap : query.Answer → Reply} (hrequest : request.isLocal = true) :
      Takes program id ex action (some request) (.choice id next query wrap ex)
  | reports {action : Option (Action σ)} {call : Option (Request σ)} {after : Execution γ σ μ}
      (kind : BugKind) (message : String) (hinboxes : after.inboxes = ex.inboxes)
      (hholders : after.holders = ex.holders) :
      Takes program id ex action call (.bug kind message after)
  | fails {action : Option (Action σ)} {call : Option (Request σ)} (cause : Fault) :
      Takes program id ex action call (.fault cause ex)

section Turns

variable {program : Program σ μ} {id : OperationId} {ex : Execution γ σ μ}
  {action : Option (Action σ)}

/-- A reply that touches neither an inbox nor a resource. -/
theorem Takes.ofLocal {call : Option (Request σ)} {between : Execution γ σ μ} {next : σ}
    {reply : Reply} (hlocal : ∀ request ∈ call, request.isLocal = true) (hwakes : ex.Wakes between)
    (hinboxes : between.inboxes = ex.inboxes) (hholder : between.holder? = ex.holder?) :
    Takes program id ex action call (.quiet (between.reply id next reply)) := by
  refine .replies hwakes (.silent (fun done hdone => ?_) (inbox_congr hinboxes) hholder)
  obtain ⟨request, hrequest, rfl⟩ := Option.map_eq_some_iff.mp hdone
  exact hlocal request hrequest

/-- A join that is over returns. -/
theorem Takes.ofJoin {request : Request σ} {targets : List OperationId} {all : Bool} {next : σ}
    {reply : Reply} (hjoin : request.join? = some (targets, all))
    (hover : targets ≠ [] → ex.isJoined targets all = true) :
    Takes program id ex action (some request) (.quiet (ex.reply id next reply)) :=
  .replies (.of_same rfl rfl (Nat.le_refl _))
    (.joined hjoin hover (inbox_congr rfl) (holder?_congr rfl))

/-- What an operation does when it has its turn at a primitive. -/
theorem takes_grantTurn (program : Program σ μ) (hsettled : ex.Settled) {primitive : Primitive σ}
    {next : σ} {call : Option (Request σ)} {op : Operation}
    (hstage : ex.stage? id = some (.parked primitive next)) (henabled : op.status = .enabled)
    (hcarries : primitive.Carries ex.iteration.isCompleted op call)
    (hknown : primitive.IsKnown ex.iteration.operations.length ex.holders.length) :
    Takes program id ex none call (ex.grantTurn id next primitive) := by
  have hsame : ex.Wakes ex := .of_same rfl rfl (Nat.le_refl _)
  cases hcarries with
  | start => exact .ofLocal (by simp) hsame rfl rfl
  | yield => exact .ofLocal (by simp [Request.isLocal]) hsame rfl rfl
  | blocked hjoin hwaits => exact .ofJoin hjoin fun _ => hwaits.isOver henabled
  | spawn name child body => exact .spawns hstage
  | join hjoin =>
    simp only [grantTurn]
    split
    · next hover => exact .ofJoin hjoin fun _ => hover
    · exact .waits hjoin
  | send target message =>
    have hbound : target.index < ex.inboxes.length := hsettled.inboxes ▸ hknown
    have hwakes : ex.Wakes (ex.deliver id target message) := by
      refine .updateOperation ?_ ?_ ?_ target fun op => ?_
      · rfl
      · rfl
      · exact Nat.le_refl _
      · split
        · exact op.wakes_receive _ _
        · exact .refl _ op
    exact .replies hwakes (.sent (ex.iteration.operationSteps - 1) (inbox_modify hbound _) rfl)
  | receive events =>
    simp only [grantTurn]
    cases htake : ex.takeMessage? id events with
    | none =>
      exact .blocks hstage (fun _ _ => .receive events) fun _ _ heq => by cases heq
    | some found =>
      obtain ⟨envelope, after⟩ := found
      obtain ⟨earlier, later, hfound, haccepted, hearlier, rfl, hbound⟩ :=
        takeMessage?_eq_some htake
      refine .replies (.updateOperation ?_ ?_ ?_ id fun op => op.wakes_receive _ _)
        (.received hfound haccepted hearlier (inbox_modify hbound _) rfl)
      · rfl
      · rfl
      · exact Nat.le_refl _
  | acquire resource =>
    simp only [grantTurn]
    cases hholder : ex.holder? resource with
    | none =>
      refine .replies (.of_same rfl rfl ?_)
        (.acquired hholder rfl (holder?_setHolder hknown _))
      exact Nat.le_of_eq List.length_set.symm
    | some holder =>
      dsimp only
      split
      · exact .reports _ _ rfl rfl
      · exact .blocks hstage (fun _ _ => .acquire resource) fun _ _ heq => by cases heq
  | release resource =>
    simp only [grantTurn]
    split
    · next hheld =>
      refine .replies (.of_map (fun _ op => op.wakeOnRelease resource) rfl (List.length_map _)
        (fun _ => List.getElem?_map ..) (fun _ op _ => op.wakes_wakeOnRelease _ resource) ?_)
        (.released hheld rfl (holder?_setHolder (index_lt_of_holder? hheld) none))
      exact Nat.le_of_eq List.length_set.symm
    · exact .reports _ _ rfl rfl

/-- A join announces itself if the operations to join are known. -/
theorem takes_joinTurn {action : Option (Action σ)} {request : Request σ}
    {targets : List OperationId} {all : Bool} (hjoin : request.join? = some (targets, all))
    (next : σ) : Takes program id ex action (some request)
      (ex.joinTurn program id next targets all) := by
  rw [joinTurn]
  split
  · exact .fails _
  · exact .parks (fun _ => rfl) (fun _ _ => .join hjoin) (fun _ _ heq => by cases heq) trivial

/-- A step at a resource announces itself if the resource is known. -/
theorem takes_resourceTurn {action : Option (Action σ)} {request : Request σ}
    (resource : ResourceId) (kind : StepKind) {primitive : Primitive σ} (next : σ)
    (hcarries : ∀ isCompleted op, primitive.Carries isCompleted op (some request))
    (hspawn : ∀ child body, primitive ≠ .spawn child body)
    (hknown : resource.index < ex.holders.length →
      primitive.IsKnown ex.iteration.operations.length ex.holders.length) :
    Takes program id ex action (some request)
      (ex.resourceTurn program id next resource kind primitive) := by
  rw [resourceTurn]
  split
  · next hbound =>
    exact .parks (fun _ => rfl) hcarries hspawn (hknown (of_decide_eq_true hbound))
  · exact .fails _

/-- What an operation does in its turn when its body runs. -/
theorem takes_actTurn (program : Program σ μ) (id : OperationId) (ex : Execution γ σ μ)
    (action : Action σ) :
    Takes program id ex (some action) action.call? (ex.actTurn program id action) := by
  have hsame : ex.Wakes ex := .of_same rfl rfl (Nat.le_refl _)
  cases action with
  | work next => exact .ofLocal (by simp [Action.call?]) hsame rfl rfl
  | finish => exact .finishes
  | raise message => exact .reports _ _ rfl rfl
  | giveUp => exact .leaves
  | call request next =>
    change Takes program id ex (some (.call request next)) (some request)
      (ex.callTurn program id next request)
    cases request with
    | yield => exact .parks (fun _ => rfl) (fun _ _ => .yield) (fun _ _ heq => by cases heq) trivial
    | spawn name body => exact .enrolls fun _ => rfl
    | join targets => exact takes_joinTurn rfl next
    | joinAny targets =>
      simp only [callTurn]
      split
      · next hnone =>
        exact .ofJoin rfl fun hsome => absurd (List.isEmpty_iff.mp hnone) hsome
      · exact takes_joinTurn rfl next
    | send target message =>
      simp only [callTurn]
      split
      · next hbound =>
        rw [isKnownOperation, Iteration.operation?, isSome_getElem?] at hbound
        exact .parks (fun _ => rfl) (fun _ _ => .send target message)
          (fun _ _ heq => by cases heq) hbound
      · exact .fails _
    | receive events =>
      exact .parks (fun _ => rfl) (fun _ _ => .receive events) (fun _ _ heq => by cases heq) trivial
    | createResource =>
      refine .ofLocal (by simp [Request.isLocal]) (.of_same rfl rfl ?_) rfl holder?_concat
      rw [List.length_append]
      exact Nat.le_add_right _ _
    | acquire resource =>
      exact takes_resourceTurn resource _ next (fun _ _ => .acquire resource)
        (fun _ _ heq => by cases heq) fun hbound => hbound
    | release resource =>
      exact takes_resourceTurn resource _ next (fun _ _ => .release resource)
        (fun _ _ heq => by cases heq) fun _ => trivial
    | boolean => exact .asks rfl
    | integer max => exact .asks rfl
    | assert condition message =>
      simp only [callTurn]
      split
      · exact .ofLocal (by simp [Request.isLocal]) hsame rfl rfl
      · exact .reports _ _ rfl rfl
    | setMonitor monitor isHot =>
      simp only [callTurn]
      split
      · exact .ofLocal (by simp [Request.isLocal]) (.of_same rfl rfl (Nat.le_refl _)) rfl rfl
      · exact .fails _
    | foreignCall thread owner => exact .reports _ _ rfl rfl

end Turns

end Execution

end ScheduleExplorer
