import ScheduleExplorer.Proofs.Execution.Scheduling
import ScheduleExplorer.Proofs.Execution.Slot
import ScheduleExplorer.Proofs.Execution.Turn

/-!
# What blocked operations wait for

An operation that is blocked on a receive is parked at that receive and has no message for it, and
one that is blocked on a resource is parked at its acquire while another operation holds the
resource. `Fits` states this of one operation with its body and its inbox, and `Execution.Settled`
of all of them. Every change that a turn makes concerns the slot of one operation, or it is one of
four others: a new operation, a new resource, a resource that gets a holder, and one that is freed.
Each of them keeps the invariant.
-/

namespace ScheduleExplorer

variable {γ σ μ : Type}

/-- Nothing is taken from an inbox if a receive accepts none of its messages. -/
theorem Inbox.take?_eq_none {events : List EventType} {inbox : Inbox}
    (h : inbox.take? events = none) : ∀ envelope ∈ inbox, envelope.isAccepted events = false := by
  induction inbox with
  | nil => exact fun _ hmem => absurd hmem List.not_mem_nil
  | cons first rest ih =>
    rw [take?] at h
    split at h
    · cases h
    · next hfirst =>
      intro envelope hmem
      rcases List.mem_cons.mp hmem with rfl | hrest
      · exact Bool.eq_false_iff.mpr hfirst
      · exact ih (Option.map_eq_none_iff.mp h) envelope hrest

/-- What is known of the operation with a number, given who holds the resources. -/
structure Fits (holder? : ResourceId → Option OperationId) (id : OperationId) (slot : Slot σ) :
    Prop where
  id_eq : slot.operation.id = id
  running : ∀ state reply, slot.stage = .running state reply → slot.operation.status = .enabled
  receive : slot.operation.status = .blockedOnReceive →
    (∃ next, slot.stage = .parked (.receive slot.operation.awaitedEvents) next) ∧
      ∀ envelope ∈ slot.inbox, envelope.isAccepted slot.operation.awaitedEvents = false
  resource : slot.operation.status = .blockedOnResource →
    ∃ resource next holder, slot.stage = .parked (.acquire resource) next ∧
      slot.operation.awaitedResource = some resource ∧ holder? resource = some holder ∧ holder ≠ id

namespace Fits

variable {holder? : ResourceId → Option OperationId} {id : OperationId} {slot : Slot σ}

/-- An enabled operation waits for nothing. -/
theorem of_enabled (hid : slot.operation.id = id) (h : slot.operation.status = .enabled) :
    Fits holder? id slot where
  id_eq := hid
  running _ _ _ := h
  receive hblocked := absurd (h.symm.trans hblocked) (by decide)
  resource hblocked := absurd (h.symm.trans hblocked) (by decide)

/-- An operation that waits for other operations, or for nothing, asks for no message and no
resource. -/
theorem of_status (hid : slot.operation.id = id) (hstage : ∀ state reply, slot.stage ≠ .running state reply)
    (hreceive : slot.operation.status ≠ .blockedOnReceive)
    (hresource : slot.operation.status ≠ .blockedOnResource) : Fits holder? id slot where
  id_eq := hid
  running state reply hrunning := absurd hrunning (hstage state reply)
  receive hblocked := absurd hblocked hreceive
  resource hblocked := absurd hblocked hresource

end Fits

namespace Execution

/-- Every operation has a body and an inbox, and the three fit. -/
structure Settled (ex : Execution γ σ μ) : Prop where
  stages : ex.stages.length = ex.iteration.operations.length
  inboxes : ex.inboxes.length = ex.iteration.operations.length
  fits : ∀ id slot, ex.slot? id = some slot → Fits ex.holder? id slot

/-- The operation with a number, if there is one, is enabled. -/
def IsFree (id : OperationId) (ex : Execution γ σ μ) : Prop :=
  ∀ slot, ex.slot? id = some slot → slot.operation.status = .enabled

/-- A change of one slot keeps the invariant if the changed slot fits. -/
theorem Settled.changes {ex after : Execution γ σ μ} {id : OperationId} {f : Slot σ → Slot σ}
    (h : ex.Settled) (hchange : Changes id f ex after)
    (hfits : ∀ slot, ex.slot? id = some slot → Fits ex.holder? id (f slot)) : after.Settled where
  stages := by rw [hchange.stages, hchange.operations, h.stages]
  inboxes := by rw [hchange.inboxes, hchange.operations, h.inboxes]
  fits other slot hslot := by
    rw [hchange.holders]
    by_cases hother : other = id
    · subst hother
      rw [hchange.here, Option.map_eq_some_iff] at hslot
      obtain ⟨old, hold, rfl⟩ := hslot
      exact hfits old hold
    · exact h.fits other slot ((hchange.elsewhere other hother).symm.trans hslot)

/-- An operation stays free if a change of its slot keeps it enabled, and if another slot is
changed. -/
theorem IsFree.changes {ex after : Execution γ σ μ} {id other : OperationId}
    {f : Slot σ → Slot σ} (hfree : ex.IsFree id) (hchange : Changes other f ex after)
    (hkept : ∀ slot, slot.operation.status = .enabled →
      (f slot).operation.status = .enabled) : after.IsFree id := by
  intro slot hslot
  by_cases hsame : other = id
  · subst hsame
    rw [hchange.here, Option.map_eq_some_iff] at hslot
    obtain ⟨old, hold, rfl⟩ := hslot
    exact hkept old (hfree old hold)
  · rw [hchange.elsewhere id (Ne.symm hsame)] at hslot
    exact hfree slot hslot

/-! ### Changes of one slot -/

section OneSlot

variable {id : OperationId} {ex : Execution γ σ μ}

/-- The number of an operation is its place. -/
theorem Settled.id_eq (h : ex.Settled) {slot : Slot σ} (hslot : ex.slot? id = some slot) :
    slot.operation.id = id :=
  (h.fits id slot hslot).id_eq

/-- The body of a free operation may go anywhere. -/
theorem Settled.setStage (h : ex.Settled) (hfree : ex.IsFree id) (stage : Stage σ) :
    (ex.setStage id stage).Settled := by
  refine h.changes (.setStage id stage ex) fun slot hslot => ?_
  have hid := h.id_eq hslot
  exact .of_enabled hid (hfree slot hslot)

/-- Moving a body on changes no status. -/
theorem IsFree.setStage (hfree : ex.IsFree id) (other : OperationId) (stage : Stage σ) :
    (ex.setStage other stage).IsFree id :=
  hfree.changes (.setStage other stage ex) fun _ henabled => henabled

/-- A change that keeps the number and the status of a free operation keeps the invariant. -/
theorem Settled.updateFree (h : ex.Settled) (hfree : ex.IsFree id)
    (change : Operation → Operation) (hid : ∀ op, (change op).id = op.id)
    (hstatus : ∀ op, op.status = .enabled → (change op).status = .enabled) :
    (ex.updateOperation id change).Settled :=
  h.changes (.updateOperation id change ex) fun slot hslot =>
    .of_enabled ((hid _).trans (h.id_eq hslot)) (hstatus _ (hfree slot hslot))

/-- A change that keeps enabled operations enabled keeps operations free. -/
theorem IsFree.updateOperation (hfree : ex.IsFree id) (other : OperationId)
    {change : Operation → Operation}
    (hstatus : ∀ op, op.status = .enabled → (change op).status = .enabled) :
    (ex.updateOperation other change).IsFree id :=
  hfree.changes (.updateOperation other change ex) fun slot => hstatus slot.operation

/-- A primitive that succeeds keeps the invariant. -/
theorem Settled.reply (h : ex.Settled) (hfree : ex.IsFree id) (next : σ) (reply : Reply) :
    (ex.reply id next reply).Settled :=
  h.setStage hfree _

/-- A spawned body begins at its start. -/
theorem Settled.begin (h : ex.Settled) (child : OperationId) (body : σ) :
    (ex.begin child body).Settled := by
  refine h.changes ((Changes.updateOperation child Operation.create ex).trans
    (.setStage child _ _)) fun slot hslot => ?_
  have hid := h.id_eq hslot
  exact .of_enabled hid rfl

/-- Beginning a body keeps operations free. -/
theorem IsFree.begin (hfree : ex.IsFree id) (child : OperationId) (body : σ) :
    (ex.begin child body).IsFree id := by
  have hcreated : (ex.updateOperation child Operation.create).IsFree id :=
    hfree.updateOperation child fun _ _ => rfl
  exact hcreated.setStage child _

/-- A join that is not over blocks its operation on other operations. -/
theorem Settled.waitTasks (h : ex.Settled) (hfree : ex.IsFree id) (targets : List OperationId)
    (all : Bool) (next : σ) :
    ((ex.setStage id (.parked .resume next)).updateOperation id
      (Operation.waitTasks targets all)).Settled := by
  refine h.changes ((Changes.setStage id _ ex).trans (.updateOperation id _ _))
    fun slot hslot => ?_
  have henabled : slot.operation.isEnabled = true := by
    rw [Operation.isEnabled, hfree slot hslot]
    rfl
  refine .of_status ?_ (fun _ _ hrunning => by cases hrunning) ?_ ?_
  · simpa [Operation.waitTasks, henabled] using h.id_eq hslot
  · cases all <;> simp [Operation.waitTasks, henabled]
  · cases all <;> simp [Operation.waitTasks, henabled]

/-- A receive that finds no message blocks its operation on a message. -/
theorem Settled.waitEvents (h : ex.Settled) (hfree : ex.IsFree id) {events : List EventType}
    {next : σ} (hstage : ex.stage? id = some (.parked (.receive events) next))
    (hnone : ex.takeMessage? id events = none) :
    (ex.updateOperation id (Operation.waitEvents events)).Settled := by
  refine h.changes (.updateOperation id _ ex) fun slot hslot => ?_
  obtain ⟨-, hparked, hinbox⟩ := slot?_eq_some.mp hslot
  have hstage' : slot.stage = .parked (.receive events) next :=
    Option.some.inj (hparked.symm.trans hstage)
  have henabled : slot.operation.isEnabled = true := by
    rw [Operation.isEnabled, hfree slot hslot]
    rfl
  have hempty : slot.inbox.take? events = none := by
    rw [takeMessage?, hinbox] at hnone
    cases htake : slot.inbox.take? events with
    | none => rfl
    | some taken => simp [htake] at hnone
  refine ⟨?_, fun _ _ hrunning => ?_, fun _ => ⟨⟨next, ?_⟩, ?_⟩, fun hblocked => ?_⟩
  · simpa [Operation.waitEvents, henabled] using h.id_eq hslot
  · rw [hstage'] at hrunning
    cases hrunning
  · simpa [Operation.waitEvents, henabled] using hstage'
  · simpa [Operation.waitEvents, henabled] using Inbox.take?_eq_none hempty
  · simp [Operation.waitEvents, henabled] at hblocked

/-- An acquire of a resource that another operation holds blocks its operation on the resource. -/
theorem Settled.waitResource (h : ex.Settled) (hfree : ex.IsFree id) {resource : ResourceId}
    {next : σ} (hstage : ex.stage? id = some (.parked (.acquire resource) next))
    {holder : OperationId} (hholder : ex.holder? resource = some holder) (hne : holder ≠ id) :
    (ex.updateOperation id (Operation.waitResource resource)).Settled := by
  refine h.changes (.updateOperation id _ ex) fun slot hslot => ?_
  obtain ⟨-, hparked, -⟩ := slot?_eq_some.mp hslot
  have hstage' : slot.stage = .parked (.acquire resource) next :=
    Option.some.inj (hparked.symm.trans hstage)
  have henabled : slot.operation.isEnabled = true := by
    rw [Operation.isEnabled, hfree slot hslot]
    rfl
  refine ⟨?_, fun _ _ hrunning => ?_, fun hblocked => ?_, fun _ => ?_⟩
  · simpa [Operation.waitResource, henabled] using h.id_eq hslot
  · rw [hstage'] at hrunning
    cases hrunning
  · simp [Operation.waitResource, henabled] at hblocked
  · exact ⟨resource, next, holder, hstage', by simp [Operation.waitResource, henabled], hholder, hne⟩

/-- A message that arrives wakes its receiver if it is accepted, and is no message for it
otherwise. -/
theorem Settled.deliver (h : ex.Settled) (sender target : OperationId) (message : Message) :
    (ex.deliver sender target message).Settled := by
  refine h.changes ((Changes.modifyInbox target _ ex).trans (.updateOperation target _ _))
    fun slot hslot => ?_
  have hold := h.fits target slot hslot
  by_cases hawaits : slot.operation.awaitsEvent message.event
  · refine .of_enabled ?_ ?_
    · simpa [hawaits, Operation.receive] using hold.id_eq
    · have hblocked : slot.operation.status = .blockedOnReceive := by
        rw [Operation.awaitsEvent, Bool.and_eq_true] at hawaits
        exact of_decide_eq_true hawaits.1
      simp [hawaits, Operation.receive, hblocked]
  · have hsame : (if slot.operation.awaitsEvent message.event = true then
        slot.operation.receive (ex.iteration.operationSteps - 1) else slot.operation) =
        slot.operation := if_neg hawaits
    simp only [Function.comp_apply, hsame]
    refine ⟨hold.id_eq, hold.running, fun hblocked => ?_, hold.resource⟩
    obtain ⟨hparked, hnone⟩ := hold.receive hblocked
    refine ⟨hparked, fun envelope hmem => ?_⟩
    rcases List.mem_append.mp hmem with hearlier | harrived
    · exact hnone envelope hearlier
    · rw [List.mem_singleton.mp harrived]
      rw [Operation.awaitsEvent, hblocked] at hawaits
      simpa [Envelope.isAccepted] using hawaits

/-- A message that arrives keeps operations free. -/
theorem IsFree.deliver (hfree : ex.IsFree id) (sender target : OperationId) (message : Message) :
    (ex.deliver sender target message).IsFree id := by
  refine hfree.changes ((Changes.modifyInbox target _ ex).trans (.updateOperation target _ _))
    fun slot henabled => ?_
  simp [Operation.awaitsEvent, henabled]

/-- A message that is taken wakes nobody. -/
theorem Settled.takeMessage (h : ex.Settled) (hfree : ex.IsFree id) {events : List EventType}
    {envelope : Envelope} {after : Execution γ σ μ}
    (htake : ex.takeMessage? id events = some (envelope, after)) :
    after.Settled ∧ after.IsFree id := by
  obtain ⟨inbox, rest, hinbox, hrest, rfl⟩ := exists_of_takeMessage? htake
  have hchange : Changes id (fun slot => { slot with inbox := rest }) ex
      { ex with inboxes := ex.inboxes.set id.index rest } := by
    have hmodify := Changes.modifyInbox id (fun _ => rest) ex
    rwa [← List.set_eq_modify] at hmodify
  refine ⟨h.changes hchange fun slot hslot => ?_, hfree.changes hchange fun _ henabled => henabled⟩
  have hid := h.id_eq hslot
  exact .of_enabled hid (hfree slot hslot)

end OneSlot

/-! ### Other changes -/

section OtherChanges

variable {id : OperationId} {ex after : Execution γ σ μ}

/-- Changing what no slot shows keeps the invariant. -/
theorem Settled.of_same (h : ex.Settled)
    (hoperations : after.iteration.operations = ex.iteration.operations)
    (hstages : after.stages = ex.stages) (hinboxes : after.inboxes = ex.inboxes)
    (hholders : after.holders = ex.holders) : after.Settled :=
  h.changes (.of_same ⟨0⟩ hoperations hstages hinboxes hholders) fun slot hslot =>
    h.fits ⟨0⟩ slot hslot

/-- Resources that gain holders, and new ones, keep the invariant: those that an operation waits for
are held by the same operation as before. -/
theorem Settled.of_holders (h : ex.Settled) {holders : List (Option OperationId)}
    (hheld : ∀ resource holder, ex.holder? resource = some holder →
      { ex with holders }.holder? resource = some holder) : { ex with holders }.Settled where
  stages := h.stages
  inboxes := h.inboxes
  fits other slot hslot := by
    obtain ⟨hid, hrunning, hreceive, hresource⟩ := h.fits other slot hslot
    refine ⟨hid, hrunning, hreceive, fun hblocked => ?_⟩
    obtain ⟨resource, next, holder, hstage, hawaits, hholder, hne⟩ := hresource hblocked
    exact ⟨resource, next, holder, hstage, hawaits, hheld resource holder hholder, hne⟩

/-- A new resource keeps the invariant. -/
theorem Settled.createResource (h : ex.Settled) :
    { ex with holders := ex.holders ++ [none] }.Settled := by
  refine h.of_holders fun resource holder hholder => ?_
  have hslot : ex.holders[resource.index]? = some (some holder) := Option.join_eq_some_iff.mp hholder
  have hbound := (List.getElem?_eq_some_iff.mp hslot).1
  rw [holder?, List.getElem?_append_left hbound, hslot]
  rfl

/-- Nobody waits for a resource without a holder, so it may be given away. -/
theorem Settled.setHolder (h : ex.Settled) {resource : ResourceId}
    (hnone : ex.holder? resource = none) (holder : OperationId) :
    (ex.setHolder resource (some holder)).Settled := by
  refine h.of_holders fun other old hold => ?_
  have hne : resource.index ≠ other.index := by
    intro hindex
    rw [holder?, hindex] at hnone
    rw [holder?, hnone] at hold
    cases hold
  rw [holder?, List.getElem?_set_ne hne]
  exact hold

/-- A resource that is freed wakes all that wait for it. -/
theorem Settled.free (h : ex.Settled) (resource : ResourceId) : (ex.free resource).Settled where
  stages := by
    rw [Execution.free, mapIteration, List.length_map]
    exact h.stages
  inboxes := by
    rw [Execution.free, mapIteration, List.length_map]
    exact h.inboxes
  fits other slot hslot := by
    obtain ⟨hoperation, hstage, hinbox⟩ := slot?_eq_some.mp hslot
    obtain ⟨old, hold, hwoken⟩ : ∃ old, ex.iteration.operation? other = some old ∧
        old.wakeOnRelease resource = slot.operation := by
      simpa [Execution.free, mapIteration, Execution.setHolder, Iteration.operation?]
        using hoperation
    have hfits := h.fits other ⟨old, slot.stage, slot.inbox⟩
      (slot?_eq_some.mpr ⟨hold, hstage, hinbox⟩)
    by_cases hawaits : old.awaitsResource resource
    · rw [Operation.wakeOnRelease, if_pos hawaits] at hwoken
      refine .of_enabled ?_ ?_
      · rw [← hwoken]
        exact hfits.id_eq
      · rw [← hwoken]
    · rw [Operation.wakeOnRelease, if_neg hawaits] at hwoken
      subst hwoken
      refine ⟨hfits.id_eq, hfits.running, hfits.receive, fun hblocked => ?_⟩
      obtain ⟨awaited, next, holder, hparked, hresource, hholder, hne⟩ := hfits.resource hblocked
      refine ⟨awaited, next, holder, hparked, hresource, ?_, hne⟩
      have hother : resource.index ≠ awaited.index := by
        intro hindex
        obtain rfl : resource = awaited := by
          cases resource
          cases awaited
          exact congrArg ResourceId.mk hindex
        have hresource' : slot.operation.awaitedResource = some resource := hresource
        exact hawaits (by simp [Operation.awaitsResource, hblocked, hresource'])
      change (ex.holders.set resource.index none)[awaited.index]?.join = some holder
      rw [List.getElem?_set_ne hother]
      exact hholder

/-- A free operation is not woken. -/
theorem IsFree.free (hfree : ex.IsFree id) (resource : ResourceId) :
    (ex.free resource).IsFree id := by
  intro slot hslot
  obtain ⟨hoperation, hstage, hinbox⟩ := slot?_eq_some.mp hslot
  obtain ⟨old, hold, hwoken⟩ : ∃ old, ex.iteration.operation? id = some old ∧
      old.wakeOnRelease resource = slot.operation := by
    simpa [Execution.free, mapIteration, Execution.setHolder, Iteration.operation?]
      using hoperation
  have henabled := hfree ⟨old, slot.stage, slot.inbox⟩ (slot?_eq_some.mpr ⟨hold, hstage, hinbox⟩)
  rw [← hwoken, Operation.wakeOnRelease]
  split
  · rfl
  · exact henabled

/-- The slots after an operation is registered. -/
theorem slot?_enroll (h : ex.Settled) (name : String) (other : OperationId) :
    (ex.enroll name).slot? other =
      if other.index = ex.iteration.operations.length then
        some ⟨Operation.new other name, .announced, []⟩
      else ex.slot? other := by
  have hindex : other.index = ex.iteration.operations.length →
      (⟨ex.iteration.operations.length⟩ : OperationId) = other := by
    rintro heq
    rw [← heq]
  simp only [slot?, stage?, enroll, Iteration.register, Iteration.operation?, getElem?_snoc,
    h.stages, h.inboxes]
  split
  · next heq =>
    rw [hindex heq]
    rfl
  · rfl

/-- An operation that is registered waits for nothing. -/
theorem Settled.enroll (h : ex.Settled) (name : String) : (ex.enroll name).Settled where
  stages := by simp [Execution.enroll, Iteration.register, h.stages]
  inboxes := by simp [Execution.enroll, Iteration.register, h.inboxes]
  fits other slot hslot := by
    rw [slot?_enroll h] at hslot
    split at hslot
    · obtain rfl := Option.some.inj hslot
      exact .of_status rfl (fun _ _ hrunning => by cases hrunning)
        (fun hblocked => by cases hblocked) (fun hblocked => by cases hblocked)
    · exact h.fits other slot hslot

/-- Registering an operation keeps the others free. -/
theorem IsFree.enroll (h : ex.Settled) (hfree : ex.IsFree id)
    (hid : id.index < ex.iteration.operations.length) (name : String) :
    (ex.enroll name).IsFree id := by
  intro slot hslot
  rw [slot?_enroll h, if_neg (Nat.ne_of_lt hid)] at hslot
  exact hfree slot hslot

end OtherChanges

end Execution

end ScheduleExplorer
