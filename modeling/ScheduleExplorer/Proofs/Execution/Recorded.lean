import ScheduleExplorer.Proofs.Execution.Orderly
import ScheduleExplorer.Proofs.Execution.Runs

/-!
# Recorded executions

The bodies of a recorded execution stand in order as long as its iteration runs, and every step has
the effect of the call that returns in it. Both follow from the list of what an operation can do in
its turn (`Execution.Takes`) and from what the iteration answers.
-/

namespace ScheduleExplorer

variable {γ σ μ : Type}

namespace Execution

/-- The bodies stand in order, and the operation whose turn it is is enabled. -/
structure InOrder (pending : OperationId → Option (Request σ)) (id : OperationId)
    (ex : Execution γ σ μ) : Prop where
  orderly : ex.Orderly pending (· = id)
  enabled : ∃ op, ex.iteration.operation? id = some op ∧ op.status = .enabled
  body : ∃ stage, ex.stage? id = some stage

/-- The body whose turn it is has not ended. -/
def HasLiveTurn (ex : Execution γ σ μ) : Prop :=
  ∃ stage, ex.stage? ex.iteration.current = some stage ∧ stage.isLive = true

/-! ### Replies -/

section Replies

variable {id : OperationId} {ex : Execution γ σ μ}

/-- A body has got the reply that it was given last. -/
theorem replyTo?_reply {old : Stage σ} (hold : ex.stage? id = some old)
    (hrunning : ex.iteration.isRunning = true) (next : σ) (reply : Reply) :
    (ex.reply id next reply).replyTo? id = some reply := by
  have hstage : (ex.reply id next reply).stage? id = some (.running next reply) :=
    (Moves.setStage id _ ex).stage?_self hold
  have hgoesOn : (ex.reply id next reply).iteration.isRunning = true := hrunning
  simp only [replyTo?, hstage, hgoesOn, if_true]

/-- A body that does not run has got no reply. -/
theorem replyTo?_eq_none {stage : Stage σ} (hstage : ex.stage? id = some stage)
    (hidle : ∀ state reply, stage ≠ .running state reply) : ex.replyTo? id = none := by
  simp only [replyTo?, hstage]
  split
  · next state reply hrunning => exact absurd (Option.some.inj hrunning) (hidle state reply)
  · rfl

/-- No body has got a reply when the iteration has ended. -/
theorem replyTo?_of_ended (hended : ex.iteration.isRunning = false) : ex.replyTo? id = none := by
  simp only [replyTo?, hended, Bool.false_eq_true, if_false]
  split <;> rfl

/-- Without a reply no call has returned, and the body goes on waiting in its call. -/
theorem returned?_of_none (hnone : ex.replyTo? id = none) (call : Option (Request σ)) :
    ex.returned? id call = none ∧ ex.waiting? id call = call := by
  refine ⟨?_, ?_⟩
  · rw [returned?, hnone]
    cases call <;> rfl
  · rw [waiting?, hnone]
    rfl

/-- With a reply the call has returned, and the body waits in none. -/
theorem returned?_of_some {reply : Reply} (hsome : ex.replyTo? id = some reply)
    (call : Option (Request σ)) :
    ex.returned? id call = (call.map fun request => ⟨id, request, reply⟩) ∧
      ex.waiting? id call = none := by
  refine ⟨?_, ?_⟩
  · rw [returned?, hsome]
    cases call <;> rfl
  · rw [waiting?, hsome]
    rfl

end Replies

/-! ### Turns -/

section Turns

variable {pending : OperationId → Option (Request σ)} {id : OperationId}
  {ex after : Execution γ σ μ}

/-- Waking operations keeps the order. -/
theorem InOrder.wakes (h : ex.InOrder pending id) (hwakes : ex.Wakes after) :
    after.InOrder pending id := by
  obtain ⟨op, hop, henabled⟩ := h.enabled
  obtain ⟨woken, hwoken, hop'⟩ := hwakes.exists_after hop
  obtain ⟨stage, hstage⟩ := h.body
  refine ⟨h.orderly.wakes hwakes fun _ hturn => hturn, ⟨woken, hwoken, hop'.enabled henabled⟩,
    stage, ?_⟩
  rw [stage?, hwakes.stages]
  exact hstage

/-- The operation whose turn it is may go on. -/
theorem InOrder.isEnabled (h : ex.InOrder pending id) : ex.isEnabled id = true := by
  obtain ⟨op, hop, henabled⟩ := h.enabled
  rw [Execution.isEnabled, hop, Option.any_some, Operation.isEnabled, henabled]
  rfl

/-- An operation that is enabled is not one that is only announced. -/
theorem InOrder.not_announced (h : ex.InOrder pending id) : ex.stage? id ≠ some .announced := by
  intro hstage
  obtain ⟨op, hop, henabled⟩ := h.enabled
  have haccords := h.orderly.accords id op _ hop hstage
  generalize pending id = call at haccords
  cases haccords with
  | announced hstatus =>
    rw [henabled] at hstatus
    cases hstatus

/-- Nobody is parked at the spawn of an operation that is enabled. -/
theorem InOrder.not_spawns (h : ex.InOrder pending id) (other : OperationId) :
    ¬ ex.Spawns id other :=
  fun hspawns => h.not_announced (h.orderly.announced other id hspawns)

/-- The operation whose turn it is may move to where its operation, the turn and its call say. -/
theorem InOrder.moves (h : ex.InOrder pending id) {change : Operation → Operation}
    {stage : Stage σ} {call : Option (Request σ)} {hasTurn : OperationId → Prop}
    (hmoves : ex.Moves id change stage after)
    (haccords : ∀ op, op.status = .enabled →
      stage.Accords after.iteration.isCompleted (hasTurn id) (change op) call)
    (hknown : ∀ primitive next, stage = .parked primitive next →
      primitive.IsKnown ex.iteration.operations.length ex.holders.length)
    (hspawns : ∀ child body next, stage = .parked (.spawn child body) next →
      ex.stage? child = some .announced ∧ child ≠ id ∧ ∀ other, ¬ ex.Spawns child other) :
    after.Orderly (Function.update pending id call) hasTurn := by
  obtain ⟨op, hop, henabled⟩ := h.enabled
  obtain ⟨old, hold⟩ := h.body
  refine h.orderly.moves hmoves hop (fun hdone => ?_) hold h.not_spawns
    (fun other hne hturn => absurd hturn hne) (haccords op henabled) hknown hspawns
  rw [henabled] at hdone
  cases hdone

/-- The body whose turn it is may run, and it may end. -/
theorem InOrder.setStage (h : ex.InOrder pending id) {stage : Stage σ}
    (hstage : stage = .ended ∨ ∃ state reply, stage = .running state reply) :
    (ex.setStage id stage).InOrder (Function.update pending id none) id := by
  have hmoves := Moves.setStage id stage ex
  have hnot {primitive : Primitive σ} {next : σ} (hparked : stage = .parked primitive next) :
      False := by
    rcases hstage with rfl | ⟨state, reply, rfl⟩ <;> cases hparked
  obtain ⟨old, hold⟩ := h.body
  refine ⟨h.moves hmoves (fun op _ => ?_) (fun _ _ hparked => (hnot hparked).elim)
    (fun _ _ _ hparked => (hnot hparked).elim), h.enabled, stage, hmoves.stage?_self hold⟩
  rcases hstage with rfl | ⟨state, reply, rfl⟩
  · exact .ended (.inr rfl)
  · exact .running rfl

/-- The operation whose turn it is may get a reply. -/
theorem InOrder.reply (h : ex.InOrder pending id) (next : σ) (reply : Reply) :
    (ex.reply id next reply).InOrder (Function.update pending id none) id :=
  h.setStage (.inr ⟨next, reply, rfl⟩)

/-- The operation whose turn it is may register another. -/
theorem InOrder.enroll (h : ex.InOrder pending id) (hsettled : ex.Settled) (name : String) :
    (ex.enroll name).InOrder pending id := by
  obtain ⟨op, hop, henabled⟩ := h.enabled
  obtain ⟨stage, hstage⟩ := h.body
  have hbound := (List.getElem?_eq_some_iff.mp hop).1
  refine ⟨h.orderly.enroll hsettled name, ⟨op, ?_, henabled⟩, stage, ?_⟩
  · rw [Iteration.operation?, Execution.enroll, Iteration.register, List.getElem?_append_left hbound]
    exact hop
  · rw [stage?_enroll hsettled, if_neg (Nat.ne_of_lt hbound)]
    exact hstage

/-- A body that is announced may begin once nobody is parked at its spawn. -/
theorem Orderly.begin {hasTurn : OperationId → Prop} (h : ex.Orderly pending hasTurn)
    {child : OperationId} {op : Operation} (hop : ex.iteration.operation? child = some op)
    (hannounced : ex.stage? child = some .announced)
    (hunspawned : ∀ other, ¬ ex.Spawns child other) (body : σ) :
    (ex.begin child body).Orderly pending hasTurn := by
  have haccords := h.accords child op _ hop hannounced
  generalize hcall : pending child = call at haccords
  cases haccords with
  | announced hstatus =>
    have hleft : op.status ≠ .completed := by
      rw [hstatus]
      decide
    have hbegun : (ex.begin child body).Orderly (Function.update pending child none) hasTurn := by
      refine h.moves (.begin child body ex) hop hleft hannounced hunspawned (fun _ _ hturn => hturn)
        (.parked .start) (fun primitive next hparked => ?_) (fun _ _ _ hparked => ?_)
      · cases hparked
        trivial
      · cases hparked
    rwa [← hcall, Function.update_eq_self] at hbegun

/-- The operation whose turn it is may carry out its spawn. -/
theorem InOrder.spawn (h : ex.InOrder pending id) (hsettled : ex.Settled) {child : OperationId}
    {body next : σ} (hstage : ex.stage? id = some (.parked (.spawn child body) next))
    (reply : Reply) :
    ((ex.begin child body).reply id next reply).InOrder (Function.update pending id none) id := by
  have hspawns : ex.Spawns child id := ⟨body, next, hstage⟩
  have hannounced := h.orderly.announced id child hspawns
  have hne : child ≠ id := by
    rintro rfl
    rw [hstage] at hannounced
    cases hannounced
  obtain ⟨op, hop⟩ := hsettled.exists_operation? hannounced
  -- The spawning body moves first, so that nobody is parked at the spawn when the new one begins.
  have hcomm : (ex.begin child body).reply id next reply =
      (ex.reply id next reply).begin child body := by
    simp only [Execution.begin, Execution.reply, Execution.setStage, updateOperation, mapIteration]
    rw [List.set_comm _ _ (Changes.index_ne hne.symm)]
  have hmoves : ex.Moves id (fun op => op) (.running next reply) (ex.reply id next reply) :=
    .setStage id _ ex
  have hunspawned (other : OperationId) : ¬ (ex.reply id next reply).Spawns child other := by
    rintro ⟨otherBody, otherNext, hother⟩
    by_cases hsame : other = id
    · subst hsame
      rw [hmoves.stage?_self hstage] at hother
      cases hother
    · rw [hmoves.stage?_of_ne hsame] at hother
      exact hsame (h.orderly.unique id other child hspawns ⟨otherBody, otherNext, hother⟩)
  have hreplied := h.reply next reply
  have hbegins := Moves.begin child body (ex.reply id next reply)
  rw [hcomm]
  refine ⟨hreplied.orderly.begin hop ((hmoves.stage?_of_ne hne).trans hannounced) hunspawned body,
    ?_, ?_⟩
  · rw [hbegins.operation?_of_ne hne.symm]
    exact hreplied.enabled
  · rw [hbegins.stage?_of_ne hne.symm]
    exact hreplied.body

variable [RandomSource γ]

/-- Passing the turn on moves no body. -/
theorem stages_reschedule (ex : Execution γ σ μ) : ex.reschedule.stages = ex.stages := by
  rw [Execution.reschedule]
  split <;> rfl

/-- Passing the turn on delivers no message. -/
theorem inboxes_reschedule (ex : Execution γ σ μ) : ex.reschedule.inboxes = ex.inboxes := by
  rw [Execution.reschedule]
  split <;> rfl

/-- Passing the turn on gives no resource away. -/
theorem holders_reschedule (ex : Execution γ σ μ) : ex.reschedule.holders = ex.holders := by
  rw [Execution.reschedule]
  split <;> rfl

omit [RandomSource γ] in
/-- The body whose turn it is has not ended if its operation is enabled and nobody has the turn. -/
theorem Orderly.isLive (h : ex.Orderly pending fun _ => False) {op : Operation} {stage : Stage σ}
    (hop : ex.iteration.operation? id = some op) (henabled : op.status = .enabled)
    (hstage : ex.stage? id = some stage) : stage.isLive = true := by
  have haccords := h.accords id op stage hop hstage
  generalize pending id = call at haccords
  cases haccords with
  | announced hstatus =>
    rw [henabled] at hstatus
    cases hstatus
  | parked => rfl
  | running hturn => exact hturn.elim
  | ended hdone =>
    rcases hdone with hstatus | hturn
    · rw [henabled] at hstatus
      cases hstatus
    · exact hturn.elim

/-- A scheduling point keeps the order and gives the turn to an operation that is enabled and whose
body has not ended. -/
theorem Orderly.reschedule (h : ex.Orderly pending fun _ => False) (hsettled : ex.Settled)
    (hrunning : ex.reschedule.iteration.isRunning = true) :
    ex.reschedule.InOrder pending ex.reschedule.iteration.current ∧
      ex.reschedule.HasLiveTurn := by
  have hscheduled := ex.iteration.scheduled
  have hstages := ex.stages_reschedule
  rw [Execution.reschedule] at hrunning hstages ⊢
  generalize ex.iteration.scheduleNext = result at hscheduled hrunning hstages ⊢
  obtain ⟨answer, it⟩ := result
  cases answer with
  | error fault => cases hrunning
  | ok next =>
    obtain ⟨hoperations, op, hop, henabled⟩ := hscheduled.of_isRunning hrunning
    have hwakes : ex.Wakes { ex with iteration := it } := by
      refine .of_map (fun _ => Operation.enableIfReady ex.iteration.isCompleted) rfl ?_
        (fun id => ?_) (fun _ op _ => op.wakes_enableIfReady _) (Nat.le_refl _)
      · rw [hoperations, Iteration.enableWaiting, List.length_map]
      · rw [← Iteration.operation?_enableWaiting, Iteration.operation?, Iteration.operation?,
          hoperations]
    obtain ⟨old, hold, -⟩ := hwakes.exists_of_operation? hop
    obtain ⟨stage, hstage⟩ := hsettled.exists_stage? hold
    have hnobody : Orderly pending (fun _ => False) { ex with iteration := it } :=
      h.wakes hwakes fun _ hturn => hturn
    have henabled := Status.isEnabled_iff.mp henabled
    exact ⟨⟨h.wakes hwakes fun _ hturn => hturn.elim, ⟨op, hop, henabled⟩, stage, hstage⟩, stage,
      hstage, hnobody.isLive hop henabled hstage⟩

/-- What a turn leads to: the effect of the call that returns, and bodies that stand in order if the
iteration goes on, with the turn at one that has not ended unless the body gave up. -/
def LeadsTo (pending : OperationId → Option (Request σ)) (id : OperationId)
    (action : Option (Action σ)) (call : Option (Request σ)) (ex after : Execution γ σ μ) : Prop :=
  ex.Effect after (after.returned? id call) ∧
    (after.iteration.isRunning = true →
      after.InOrder (Function.update pending id (after.waiting? id call)) after.iteration.current ∧
        (after.HasLiveTurn ∨ action = some .giveUp))

omit [RandomSource γ] in
/-- When the iteration has ended no call has returned. -/
theorem leadsTo_of_ended {action : Option (Action σ)} {call : Option (Request σ)}
    (hended : after.iteration.isRunning = false)
    (hinboxes : after.inboxes = ex.inboxes) (hholders : after.holders = ex.holders) :
    LeadsTo pending id action call ex after := by
  refine ⟨?_, fun hrunning => ?_⟩
  · rw [(returned?_of_none (replyTo?_of_ended hended) call).1]
    exact .silent (fun _ hnone => by cases hnone) (inbox_congr hinboxes) (holder?_congr hholders)
  · rw [hended] at hrunning
    cases hrunning

/-- At a scheduling point no call has returned, and the body waits in its call. -/
theorem leadsTo_reschedule {action : Option (Action σ)} {call : Option (Request σ)}
    {point : Execution γ σ μ} {stage : Stage σ}
    (hstage : point.stage? id = some stage) (hidle : ∀ state reply, stage ≠ .running state reply)
    (hinbox : point.inbox = ex.inbox) (hholders : point.holders = ex.holders)
    (hsettled : point.Settled)
    (horderly : point.Orderly (Function.update pending id call) fun _ => False) :
    LeadsTo pending id action call ex point.reschedule := by
  have hstage' : point.reschedule.stage? id = some stage := by
    rw [stage?, stages_reschedule]
    exact hstage
  obtain ⟨hnone, hwaiting⟩ := returned?_of_none (replyTo?_eq_none hstage' hidle) call
  refine ⟨?_, fun hrunning => ?_⟩
  · rw [hnone]
    refine .silent (fun _ hcall => by cases hcall) ?_ ?_
    · rw [inbox_congr point.inboxes_reschedule, hinbox]
    · rw [holder?_congr point.holders_reschedule, holder?_congr hholders]
  · rw [hwaiting]
    obtain ⟨hin, hlive⟩ := horderly.reschedule hsettled hrunning
    exact ⟨hin, .inl hlive⟩

/-- At a scheduling point to which the body has moved, and at which it spawns nothing, no call has
returned. -/
theorem leadsTo_moves {action : Option (Action σ)} {call : Option (Request σ)}
    {change : Operation → Operation} {stage : Stage σ} {point : Execution γ σ μ}
    (hin : ex.InOrder pending id) (hmoves : ex.Moves id change stage point)
    (hidle : ∀ state reply, stage ≠ .running state reply) (hinboxes : point.inboxes = ex.inboxes)
    (hholders : point.holders = ex.holders) (hsettled : point.Settled)
    (haccords : ∀ op, op.status = .enabled →
      stage.Accords point.iteration.isCompleted False (change op) call)
    (hknown : ∀ primitive next, stage = .parked primitive next →
      primitive.IsKnown ex.iteration.operations.length ex.holders.length)
    (hspawn : ∀ child body next, stage ≠ .parked (.spawn child body) next) :
    LeadsTo pending id action call ex point.reschedule := by
  obtain ⟨old, hold⟩ := hin.body
  apply leadsTo_reschedule (hmoves.stage?_self hold) hidle (inbox_congr hinboxes) hholders hsettled
  exact hin.moves hmoves haccords hknown fun child body next heq =>
    absurd heq (hspawn child body next)

omit [RandomSource γ] in
/-- A body that gets a reply goes on. -/
theorem leadsTo_reply {action : Option (Action σ)} {call : Option (Request σ)}
    {between : Execution γ σ μ} {next : σ} {reply : Reply}
    (heffect : ex.Effect (between.reply id next reply)
      (call.map fun request => ⟨id, request, reply⟩))
    (hbody : ∃ stage, between.stage? id = some stage)
    (hrunning : between.iteration.isRunning = true) (hcurrent : between.iteration.current = id)
    (hin : (between.reply id next reply).InOrder (Function.update pending id none) id) :
    LeadsTo pending id action call ex (between.reply id next reply) := by
  obtain ⟨stage, hstage⟩ := hbody
  obtain ⟨hreturned, hwaiting⟩ := returned?_of_some (replyTo?_reply hstage hrunning next reply) call
  refine ⟨?_, fun _ => ?_⟩
  · rw [hreturned]
    exact heffect
  · rw [hwaiting]
    have hcurrent' : (between.reply id next reply).iteration.current = id := hcurrent
    refine ⟨by rwa [hcurrent'], .inl ⟨.running next reply, ?_, rfl⟩⟩
    rw [hcurrent']
    exact (Moves.setStage id _ between).stage?_self hstage

/-- The body that asks for a new one stays in order, and the operation of the new one has no body
yet. -/
theorem leadsTo_enroll (program : Program σ μ) {action : Option (Action σ)} (name : String)
    (body next : σ) (describe : Operation → Operation) (hin : ex.InOrder pending id)
    (hex : ex.Settled) (hcurrent : ex.iteration.current = id)
    (hsettled : ((ex.enroll name).park program id (.spawn ⟨ex.iteration.operations.length⟩ body) next
      describe).Settled) :
    LeadsTo pending id action (some (.spawn name body)) ex ((ex.enroll name).park program id
      (.spawn ⟨ex.iteration.operations.length⟩ body) next describe).reschedule := by
  obtain ⟨old, hold⟩ := hin.body
  have henrolled := hin.enroll hex name
  have hmoves := Moves.park program (.spawn ⟨ex.iteration.operations.length⟩ body) next describe
    (show (ex.enroll name).iteration.current = id from hcurrent)
  obtain ⟨stage, hstage⟩ := henrolled.body
  refine leadsTo_reschedule (hmoves.stage?_self hstage) (fun _ _ heq => by cases heq)
    (inbox_enroll name) rfl hsettled ?_
  refine henrolled.moves hmoves (fun _ _ => .parked (.spawn ..)) (fun _ _ hparked => ?_)
    (fun child spawned _ hparked => ?_)
  · cases hparked
    trivial
  · cases hparked
    refine ⟨?_, ?_, fun other => ?_⟩
    · rw [stage?_enroll hex, if_pos rfl]
    · rintro rfl
      rw [hex.stage?_eq_none rfl] at hold
      cases hold
    · rintro ⟨otherBody, otherNext, hother⟩
      have hannounced := hin.orderly.announced other _
        ⟨otherBody, otherNext, stage?_of_enroll hex hother⟩
      rw [hex.stage?_eq_none rfl] at hannounced
      cases hannounced

/-- A body that asks for a value goes on with it. -/
theorem leadsTo_choose {action : Option (Action σ)} {call : Option (Request σ)}
    (hin : ex.InOrder pending id) (hcurrent : ex.iteration.current = id) (next : σ) {query : Query}
    (wrap : query.Answer → Reply) (hlocal : ∀ request ∈ call, request.isLocal = true) :
    LeadsTo pending id action call ex (ex.choose id next query wrap) := by
  have hchosen := ex.iteration.chosen query
  rw [choose]
  generalize ex.iteration.choose query = result at hchosen ⊢
  obtain ⟨answer, it⟩ := result
  cases answer with
  | error fault => exact leadsTo_of_ended rfl rfl rfl
  | ok value =>
    by_cases hgoesOn : it.isRunning = true
    · obtain ⟨given, rfl, hoperations, hkept⟩ := hchosen.of_isRunning hgoesOn
      have hanswered : InOrder pending id { ex with iteration := it } :=
        hin.wakes (.of_same rfl hoperations (Nat.le_refl _))
      refine leadsTo_reply (.silent (fun done hdone => ?_) (inbox_congr rfl) (holder?_congr rfl))
        hanswered.body hgoesOn (hkept.trans hcurrent) (hanswered.reply next _)
      obtain ⟨request, hrequest, rfl⟩ := Option.map_eq_some_iff.mp hdone
      exact hlocal request hrequest
    · have hended := Bool.eq_false_iff.mpr hgoesOn
      cases value with
      | none => exact leadsTo_of_ended hended rfl rfl
      | some given => exact leadsTo_of_ended hended rfl rfl

/-- What an operation does in its turn leads to bodies in order. -/
theorem Takes.leadsTo {program : Program σ μ} {action : Option (Action σ)}
    {call : Option (Request σ)} {turn : Turn γ σ μ} (h : Takes program id ex action call turn)
    (hin : ex.InOrder pending id) (hex : ex.Settled) (hcurrent : ex.iteration.current = id)
    (hsettled : turn.Settled)
    (hturn : turn.execution.iteration.current = id)
    (hrunning : turn.execution.iteration.isRunning = true) :
    LeadsTo pending id action call ex turn.settle := by
  obtain ⟨old, hold⟩ := hin.body
  cases h with
  | @replies action call between next reply hwakes heffect =>
    have hbetween := hin.wakes hwakes
    exact leadsTo_reply heffect hbetween.body hrunning hturn (hbetween.reply next reply)
  | @spawns action name child body next hstage =>
    exact leadsTo_reply (.silent (by simp [Request.isLocal]) (inbox_congr rfl) (holder?_congr rfl))
      ((Moves.begin child body ex).exists_stage? hold) hrunning hturn (hin.spawn hex hstage _)
  | @enrolls action name body next describe hdescribe =>
    exact leadsTo_enroll program name body next describe hin hex hcurrent hsettled
  | @parks action request primitive next describe hdescribe hcarries hspawn hknown =>
    have hmoves := Moves.park program primitive next describe hcurrent
    refine leadsTo_moves hin hmoves (fun _ _ heq => by cases heq) rfl rfl hsettled
      (fun op _ => .parked (hcarries _ _)) (fun _ _ hparked => ?_)
      fun child body _ hparked => hspawn child body (Stage.parked.inj hparked).1
    obtain ⟨rfl, -⟩ := Stage.parked.inj hparked
    exact hknown
  | @waits action request targets all next hjoin =>
    have hmoves : ex.Moves id (Operation.waitTasks targets all) (.parked .resume next)
        ((ex.setStage id (.parked .resume next)).updateOperation id
          (Operation.waitTasks targets all)) := ⟨rfl, rfl, rfl⟩
    refine leadsTo_moves hin hmoves (fun _ _ heq => by cases heq) rfl rfl hsettled
      (fun op henabled => .parked (.blocked hjoin (.inr ?_))) (fun _ _ hparked => ?_)
      fun _ _ _ hparked => by cases hparked
    · simp [Operation.waitTasks, Operation.isEnabled, henabled, Status.isEnabled]
    · cases hparked
      trivial
  | @blocks action request primitive next wait hstage hcarries hspawn =>
    have hmoves := Moves.updateOperation wait hstage
    refine leadsTo_moves hin hmoves (fun _ _ heq => by cases heq) rfl rfl hsettled
      (fun op _ => .parked (hcarries _ _)) (fun _ _ hparked => ?_)
      fun child body _ hparked => hspawn child body (Stage.parked.inj hparked).1
    obtain ⟨rfl, -⟩ := Stage.parked.inj hparked
    exact hin.orderly.known id primitive next hstage
  | finishes =>
    have hmoves : ex.Moves id Operation.complete .ended
        ((ex.setStage id .ended).updateOperation id Operation.complete) := ⟨rfl, rfl, rfl⟩
    exact leadsTo_moves hin hmoves (fun _ _ heq => by cases heq) rfl rfl hsettled
      (fun op _ => .ended (.inl rfl)) (fun _ _ heq => by cases heq) fun _ _ _ heq => by cases heq
  | leaves =>
    have hstage := (Moves.setStage id .ended ex).stage?_self hold
    have hidle := replyTo?_eq_none hstage fun _ _ heq => by cases heq
    obtain ⟨hnone, hwaiting⟩ := returned?_of_none hidle (none : Option (Request σ))
    have hturn' : (ex.setStage id .ended).iteration.current = id := hturn
    refine ⟨?_, fun _ => ?_⟩
    · rw [Turn.settle, hnone]
      exact .silent (fun _ hcall => by cases hcall) (inbox_congr rfl) (holder?_congr rfl)
    · rw [Turn.settle, hwaiting, hturn']
      exact ⟨hin.setStage (.inl rfl), .inr rfl⟩
  | @asks action request next query wrap hrequest =>
    apply leadsTo_choose hin hcurrent next wrap
    rintro _ ⟨⟩
    exact hrequest
  | reports kind message hinboxes hholders =>
    exact leadsTo_of_ended (Iteration.isRunning_reportBug _ _ _) hinboxes hholders
  | fails cause => exact leadsTo_of_ended rfl rfl rfl

end Turns

/-! ### Steps -/

/-- The first body stands in order. -/
theorem inOrder_start (program : Program σ μ) {it : Iteration γ} (hit : it.operations = []) :
    (Execution.start program it).InOrder (fun _ => none) ⟨0⟩ := by
  have hoperations : (Execution.start program it).iteration.operations =
      [(Operation.new ⟨0⟩ "main").create] := by
    simp [Execution.start, Iteration.register, Iteration.update, hit]
  have hstage {id : OperationId} {stage : Stage σ}
      (hbody : (Execution.start program it).stage? id = some stage) :
      stage = .parked .start program.main := by
    rw [stage?, Execution.start, List.getElem?_singleton] at hbody
    split at hbody
    · exact (Option.some.inj hbody).symm
    · cases hbody
  have hspawns (child id : OperationId) : ¬ (Execution.start program it).Spawns child id := by
    rintro ⟨body, next, hbody⟩
    cases hstage hbody
  refine ⟨⟨fun id op stage _ hbody => ?_, fun _ _ => rfl, fun id primitive next hbody => ?_,
    fun id child hchild => absurd hchild (hspawns child id),
    fun id other child hid _ => absurd hid (hspawns child id)⟩,
    ⟨(Operation.new ⟨0⟩ "main").create, ?_, rfl⟩, _, rfl⟩
  · rw [hstage hbody]
    exact .parked .start
  · obtain ⟨rfl, -⟩ := Stage.parked.inj (hstage hbody)
    trivial
  · rw [Iteration.operation?, hoperations]
    rfl

variable [RandomSource γ]

omit [RandomSource γ] in
/-- A step is what the operation whose turn it is does with the call that it makes or in which it
waits. -/
theorem exists_takes {program : Program σ μ} {journal : Journal σ} {ex : Execution γ σ μ}
    {turn : Turn γ σ μ} (hsettled : ex.Settled)
    (hin : ex.InOrder journal.pending ex.iteration.current)
    (hturn : ex.turn? program = some turn) :
    ∃ memory, Takes program ex.iteration.current { ex with memory } (ex.action? program)
      (ex.call? program journal) turn := by
  obtain ⟨-, ⟨primitive, next, hstage, -, rfl⟩ | ⟨state, reply, hstage, rfl⟩⟩ := turn?_cases hturn
  · obtain ⟨op, hop, henabled⟩ := hin.enabled
    have haction : ex.action? program = none := by
      simp only [action?, hstage]
    refine ⟨ex.memory, ?_⟩
    rw [call?, haction]
    refine takes_grantTurn program hsettled hstage henabled ?_ (hin.orderly.known _ _ _ hstage)
    have haccords := hin.orderly.accords _ op _ hop hstage
    cases haccords with
    | parked hcarries => exact hcarries
  · refine ⟨(program.resume ex.iteration.current state reply ex.memory).2, ?_⟩
    have haction : ex.action? program =
        some (program.resume ex.iteration.current state reply ex.memory).1 := by
      simp only [action?, hstage]
    rw [call?, haction]
    exact takes_actTurn program _ _ _

omit [RandomSource γ] in
/-- What a call does is the same whatever the memory. -/
theorem Effect.ofMemory {ex after : Execution γ σ μ} {memory : μ} {call : Option (Return σ)}
    (h : Effect { ex with memory } after call) : Effect ex after call := by
  cases h with
  | silent hcall hinbox hholder => exact .silent hcall hinbox hholder
  | joined hjoin hover hinbox hholder => exact .joined hjoin hover hinbox hholder
  | sent sendStep hinbox hholder => exact .sent sendStep hinbox hholder
  | received hfound haccepted hearlier hinbox hholder =>
    exact .received hfound haccepted hearlier hinbox hholder
  | acquired hfree hinbox hholder => exact .acquired hfree hinbox hholder
  | released hheld hinbox hholder => exact .released hheld hinbox hholder

/-- A step has the effect of the call that returns in it, and leaves the bodies in order, with the turn
at one that has not ended unless the body that took the step gave up. -/
theorem InOrder.step {program : Program σ μ} {journal : Journal σ} {ex after : Execution γ σ μ}
    (hin : ex.InOrder journal.pending ex.iteration.current) (hsettled : ex.Settled)
    (hstep : ex.step program = some after) :
    ex.Effect after (journal.return? program ex after) ∧
      (after.iteration.isRunning = true →
        after.InOrder (journal.record program ex after).pending after.iteration.current ∧
          (after.HasLiveTurn ∨ ex.action? program = some .giveUp)) := by
  rw [step_eq_settle, Option.map_eq_some_iff] at hstep
  obtain ⟨turn, hturn, rfl⟩ := hstep
  obtain ⟨memory, htakes⟩ := exists_takes hsettled hin hturn
  obtain ⟨hrunning, hof⟩ := isOf_turn hturn
  have hin' : InOrder journal.pending ex.iteration.current { ex with memory } :=
    hin.wakes (.of_same rfl rfl (Nat.le_refl _))
  have hsettled' : Settled { ex with memory } := hsettled.of_same rfl rfl rfl rfl
  obtain ⟨heffect, horder⟩ := htakes.leadsTo hin' hsettled' rfl (hsettled.turn hturn)
    hof.sameRun.current (hof.sameRun.isRunning.trans hrunning)
  exact ⟨heffect.ofMemory, horder⟩

/-- A step is taken by a running iteration. -/
theorem isRunning_of_step {program : Program σ μ} {ex after : Execution γ σ μ}
    (hstep : ex.step program = some after) : ex.iteration.isRunning = true := by
  rw [step_eq_settle, Option.map_eq_some_iff] at hstep
  obtain ⟨turn, hturn, -⟩ := hstep
  exact (isOf_turn hturn).1

namespace Recorded

variable {program : Program σ μ} {ex after : Execution γ σ μ} {journal : Journal σ}

/-- Recorded executions are settled. -/
theorem settled (h : Recorded program ex journal) : ex.Settled := by
  induction h with
  | start => exact settled_start program rfl
  | step _ hstep ih => exact ih.step hstep

/-- The bodies of a recorded execution stand in order while its iteration runs. -/
theorem inOrder (h : Recorded program ex journal) (hrunning : ex.iteration.isRunning = true) :
    ex.InOrder journal.pending ex.iteration.current := by
  induction h with
  | start => exact inOrder_start program rfl
  | step h hstep ih => exact (((ih (isRunning_of_step hstep)).step h.settled hstep).2 hrunning).1

/-- Every step of a recorded execution has the effect of the call that returns in it. -/
theorem effect (h : Recorded program ex journal) (hstep : ex.step program = some after) :
    ex.Effect after (journal.return? program ex after) :=
  ((h.inOrder (isRunning_of_step hstep)).step h.settled hstep).1

end Recorded

/-- The first execution of a program under depth-first search, at its beginning. -/
def first (program : Program σ μ) : Execution Tape σ μ :=
  .start program { strategy := Config.build {} (fun _ => ⟨#[], 0, 0⟩) .depthFirst 0 }

/-- A run under depth-first search is recorded. -/
theorem recorded_first (program : Program σ μ) (fuel : Nat) :
    Recorded program ((first program).run program fuel)
      (runRecorded program fuel (first program, {})).2 := by
  have hstart : Recorded program (first program) {} := .start _ {} {} false
  rw [← fst_runRecorded program (first program) {} fuel]
  exact hstart.run fuel

end Execution

end ScheduleExplorer
