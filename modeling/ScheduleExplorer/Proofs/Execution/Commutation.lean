import ScheduleExplorer.Proofs.Execution.Deeds

/-!
# Turns in either order

A turn is all that an operation does until its next scheduling point (`Outlook.Plays`). Two
operations that are parked at primitives on different objects can take their turns in either order.
First for one deed of each: what an operation does next is the same after a deed of the other, since
it looks only at its own place, at the resource that it asks for and at the operations that it joins.
Then for a deed and a turn, and for two turns, by induction on the turns.
-/

namespace ScheduleExplorer

variable {σ μ : Type}

/-- The bodies of two operations have no memory in common when they go on from some local states, with
some replies: what one does to the memory neither changes the action of the other nor depends on what
the other does to it. -/
structure Program.Separates (program : Program σ μ) (p q : OperationId)
    (ofP ofQ : List (σ × Reply)) : Prop where
  left : ∀ s ∈ ofP, ∀ t ∈ ofQ, ∀ memory,
    (program.resume p s.1 s.2 (program.resume q t.1 t.2 memory).2).1 =
      (program.resume p s.1 s.2 memory).1
  right : ∀ s ∈ ofP, ∀ t ∈ ofQ, ∀ memory,
    (program.resume q t.1 t.2 (program.resume p s.1 s.2 memory).2).1 =
      (program.resume q t.1 t.2 memory).1
  memory : ∀ s ∈ ofP, ∀ t ∈ ofQ, ∀ memory,
    (program.resume p s.1 s.2 (program.resume q t.1 t.2 memory).2).2 =
      (program.resume q t.1 t.2 (program.resume p s.1 s.2 memory).2).2

namespace Program.Separates

variable {program : Program σ μ} {p q : OperationId} {ofP ofQ : List (σ × Reply)}

/-- Bodies without common memory have none in either order. -/
theorem symm (h : program.Separates p q ofP ofQ) : program.Separates q p ofQ ofP where
  left t ht s hs memory := h.right s hs t ht memory
  right t ht s hs memory := h.left s hs t ht memory
  memory t ht s hs memory := (h.memory s hs t ht memory).symm

/-- Fewer local states have no memory in common either. -/
theorem mono (h : program.Separates p q ofP ofQ) {lessP lessQ : List (σ × Reply)}
    (hp : lessP ⊆ ofP) (hq : lessQ ⊆ ofQ) : program.Separates p q lessP lessQ where
  left s hs t ht memory := h.left s (hp hs) t (hq ht) memory
  right s hs t ht memory := h.right s (hp hs) t (hq ht) memory
  memory s hs t ht memory := h.memory s (hp hs) t (hq ht) memory

end Program.Separates

/-- The local state from which a body goes on, with the reply, if it runs. -/
def Stage.resumed : Stage σ → List (σ × Reply)
  | running state reply => [(state, reply)]
  | announced | parked .. | ended => []

namespace Outlook

/-- The local state from which the body of an operation goes on, if it runs. -/
def resumed (id : OperationId) (o : Outlook σ μ) : List (σ × Reply) :=
  (o.stage? id).elim [] Stage.resumed

/-- What an operation does next, with the value that it draws. -/
inductive Moves (program : Program σ μ) (id : OperationId) (o : Outlook σ μ) :
    Option Decision → Deed σ μ → Prop where
  | does {deed : Deed σ μ} (h : o.act? program id = some (.does deed)) :
      Moves program id o none deed
  | draws {next : σ} {query : Query} {wrap : query.Answer → Reply} {memory : μ → μ}
      (h : o.act? program id = some (.asks next query wrap memory)) (value : query.Answer) :
      Moves program id o (some (query.decision value)) { move := .runs next (wrap value), memory }

/-- What an operation does until its next scheduling point, with the values that it draws and the
local states from which its body goes on. -/
inductive Plays (program : Program σ μ) (id : OperationId) :
    List (σ × Reply) → List Decision → Outlook σ μ → Outlook σ μ → Prop where
  | last {o : Outlook σ μ} {value : Option Decision} {deed : Deed σ μ}
      (h : o.Moves program id value deed) (hpoint : deed.move.isPoint = true) :
      Plays program id (o.resumed id) value.toList o (o.perform id deed)
  | step {o after : Outlook σ μ} {value : Option Decision} {deed : Deed σ μ}
      {states : List (σ × Reply)} {values : List Decision} (h : o.Moves program id value deed)
      (hquiet : deed.move.isPoint = false)
      (rest : Plays program id states values (o.perform id deed) after) :
      Plays program id (o.resumed id ++ states) (value.toList ++ values) o after

end Outlook

/-! ### What a deed is about -/

/-- What a primitive does when its turn has come. -/
inductive Outlook.Grants (o : Outlook σ μ) (id : OperationId) (next : σ) :
    Primitive σ → Move σ → Reach σ → Prop where
  | goesOn {primitive : Primitive σ} (reply : Reply) :
      Grants o id next primitive (.runs next reply) .nothing
  | spawns (child : OperationId) (body : σ) (reply : Reply) :
      Grants o id next (.spawn child body) (.runs next reply) (.begins child body)
  | joins {targets : List OperationId} {all : Bool} (hwaits : o.isJoined targets all = false) :
      Grants o id next (.join targets all) (.joins targets all next) .nothing
  | sends (target : OperationId) (message : Message) (envelope : Envelope) (reply : Reply) :
      Grants o id next (.send target message) (.runs next reply) (.posts target envelope)
  | takes (events : List EventType) (rest : Inbox) (reply : Reply) :
      Grants o id next (.receive events) (.takes rest next reply) .nothing
  | awaits (events : List EventType) : Grants o id next (.receive events) (.awaits events) .nothing
  | acquires (resource : ResourceId) (reply : Reply) :
      Grants o id next (.acquire resource) (.runs next reply) (.holds resource id)
  | queues (resource : ResourceId) : Grants o id next (.acquire resource) (.queues resource) .nothing
  | releases {resource : ResourceId} (reply : Reply) (hholds : o.holder? resource = some id) :
      Grants o id next (.release resource) (.runs next reply) (.frees resource)

/-- The move acts on nothing and begins no wait. -/
def Move.isLocal : Move σ → Bool
  | runs .. | parks .. | finishes | leaves => true
  | takes .. | joins .. | awaits _ | queues _ => false

/-- Nothing is reached that was there before. -/
def Reach.isLocal : Reach σ → Bool
  | nothing | creates | enrolls _ => true
  | posts .. | begins .. | holds .. | frees _ | wakes _ => false

/-- A local move acts on no object. -/
theorem Move.object?_of_isLocal {move : Move σ} (h : move.isLocal = true) (id : OperationId) :
    move.object? id = none := by
  cases move <;> first | rfl | cases h

/-- A local reach acts on no object. -/
theorem Reach.object?_of_isLocal {reach : Reach σ} (h : reach.isLocal = true) :
    reach.object? = none := by
  cases reach <;> first | rfl | cases h

/-- A body that runs goes on from its local state. -/
theorem Outlook.mem_resumed {id : OperationId} {state : σ} {reply : Reply} (o : Outlook σ μ)
    (h : o.stage? id = some (.running state reply)) : (state, reply) ∈ o.resumed id := by
  rw [resumed, h]
  exact List.mem_singleton_self _

/-- What is known of a deed: it carries out the primitive at which the body is parked, or the body
runs and acts on nothing. -/
inductive Deed.Fits (program : Program σ μ) (id : OperationId) (o : Outlook σ μ) :
    Deed σ μ → Prop where
  | granted {primitive : Primitive σ} {next : σ} {move : Move σ} {reach : Reach σ}
      (hstage : o.stage? id = some (.parked primitive next))
      (hgrants : o.Grants id next primitive move reach) :
      Fits program id o { move, reach, memory := fun memory => memory }
  | taken {state : σ} {reply : Reply} {move : Move σ} {reach : Reach σ}
      (hstage : o.stage? id = some (.running state reply)) (hmove : move.isLocal = true)
      (hreach : reach.isLocal = true) :
      Fits program id o
        { move, reach, memory := fun memory => (program.resume id state reply memory).2 }

namespace Outlook

variable {program : Program σ μ} {id : OperationId} {o : Outlook σ μ} {deed : Deed σ μ}
  {value : Option Decision}

/-- What the turn of a primitive does. -/
theorem grantAct_eq {next : σ} {inbox : Inbox} {primitive : Primitive σ} {act : Act σ μ}
    (h : o.grantAct id next inbox primitive = act) : act = .fails ∨ ∃ move reach,
      act = .does { move, reach, memory := fun memory => memory } ∧
        o.Grants id next primitive move reach := by
  subst h
  cases primitive with
  | start => exact .inr ⟨_, _, rfl, .goesOn _⟩
  | resume => exact .inr ⟨_, _, rfl, .goesOn _⟩
  | spawn child body => exact .inr ⟨_, _, rfl, .spawns child body _⟩
  | join targets all =>
    cases hjoined : o.isJoined targets all with
    | true => exact .inr ⟨_, _, by rw [grantAct, hjoined]; rfl, .goesOn _⟩
    | false => exact .inr ⟨_, _, by rw [grantAct, hjoined]; rfl, .joins hjoined⟩
  | send target message => exact .inr ⟨_, _, rfl, .sends target message _ _⟩
  | receive events =>
    rw [grantAct]
    split
    · exact .inr ⟨_, _, rfl, .takes events _ _⟩
    · exact .inr ⟨_, _, rfl, .awaits events⟩
  | acquire resource =>
    rw [grantAct]
    split
    · exact .inr ⟨_, _, rfl, .acquires resource _⟩
    · split
      · exact .inl rfl
      · exact .inr ⟨_, _, rfl, .queues resource⟩
  | release resource =>
    rw [grantAct]
    split
    · next hholds => exact .inr ⟨_, _, rfl, .releases _ hholds⟩
    · exact .inl rfl

/-- What a running body does. -/
def IsCall (memory : μ → μ) (act : Act σ μ) : Prop :=
  act = .fails ∨ (∃ next query wrap, act = .asks next query wrap memory) ∨
    ∃ move reach, act = .does { move, reach, memory } ∧ move.isLocal = true ∧ reach.isLocal = true

/-- An action of a body fails, asks for a value, or does something local. -/
theorem isCall_actionAct (memory : μ → μ) (action : Action σ) :
    IsCall memory (o.actionAct memory action) := by
  have hreplies (next : σ) (reply : Reply) : IsCall memory (replies memory next reply) :=
    .inr (.inr ⟨_, _, rfl, rfl, rfl⟩)
  have hannounces (primitive : Primitive σ) (next : σ) :
      IsCall memory (announces memory primitive next) := .inr (.inr ⟨_, _, rfl, rfl, rfl⟩)
  have hif {condition : Prop} [Decidable condition] {act : Act σ μ} (hact : IsCall memory act) :
      IsCall memory (if condition then act else .fails) := by
    split
    · exact hact
    · exact .inl rfl
  cases action with
  | work next => exact hreplies next _
  | finish => exact .inr (.inr ⟨_, _, rfl, rfl, rfl⟩)
  | raise message => exact .inl rfl
  | giveUp => exact .inr (.inr ⟨_, _, rfl, rfl, rfl⟩)
  | call request next =>
    rw [actionAct]
    cases request with
    | yield => exact hannounces _ _
    | spawn name body => exact .inr (.inr ⟨_, _, rfl, rfl, rfl⟩)
    | join targets => exact hif (hannounces _ _)
    | joinAny targets =>
      rw [callAct]
      split
      · exact hreplies _ _
      · exact hif (hannounces _ _)
    | send target message => exact hif (hannounces _ _)
    | receive events => exact hannounces _ _
    | createResource => exact .inr (.inr ⟨_, _, rfl, rfl, rfl⟩)
    | acquire resource => exact hif (hannounces _ _)
    | release resource => exact hif (hannounces _ _)
    | boolean => exact .inr (.inl ⟨_, _, _, rfl⟩)
    | integer max => exact .inr (.inl ⟨_, _, _, rfl⟩)
    | assert condition message => exact hif (hreplies _ _)
    | setMonitor monitor isHot => exact hif (hreplies _ _)
    | foreignCall thread owner => exact .inl rfl

/-- An operation that does something is enabled, and its body is parked or runs. -/
theorem act?_eq_some {act : Act σ μ} : o.act? program id = some act ↔
    ∃ slot, o.slots id = some slot ∧ slot.operation.status = .enabled ∧
      ((∃ primitive next, slot.stage = .parked primitive next ∧
          act = o.grantAct id next slot.inbox primitive) ∨
        ∃ state reply, slot.stage = .running state reply ∧
          act = o.actionAct (fun memory => (program.resume id state reply memory).2)
            (program.resume id state reply o.memory).1) := by
  rw [act?, Option.bind_eq_some_iff]
  constructor
  · rintro ⟨slot, hslot, hact⟩
    split at hact
    · next henabled =>
      refine ⟨slot, hslot, Status.isEnabled_iff.mp henabled, ?_⟩
      cases hstage : slot.stage with
      | parked primitive next =>
        rw [hstage] at hact
        exact .inl ⟨primitive, next, rfl, (Option.some.inj hact).symm⟩
      | running state reply =>
        rw [hstage] at hact
        exact .inr ⟨state, reply, rfl, (Option.some.inj hact).symm⟩
      | announced =>
        rw [hstage] at hact
        cases hact
      | ended =>
        rw [hstage] at hact
        cases hact
    · cases hact
  · rintro ⟨slot, hslot, henabled, hact⟩
    have hisEnabled : slot.operation.isEnabled = true := Status.isEnabled_iff.mpr henabled
    refine ⟨slot, hslot, ?_⟩
    rw [if_pos hisEnabled]
    rcases hact with ⟨primitive, next, hstage, rfl⟩ | ⟨state, reply, hstage, rfl⟩
    · rw [hstage]
    · rw [hstage]

/-- What an operation does fits. -/
theorem Moves.fits (h : o.Moves program id value deed) : deed.Fits program id o := by
  cases h with
  | does h =>
    obtain ⟨slot, hslot, -, hact⟩ := act?_eq_some.mp h
    rcases hact with ⟨primitive, next, hstage, hact⟩ | ⟨state, reply, hstage, hact⟩
    · have hstage' : o.stage? id = some (.parked primitive next) := by
        rw [stage?, hslot, Option.map_some, hstage]
      obtain hfails | ⟨move, reach, hdoes, hgrants⟩ := grantAct_eq hact.symm
      · cases hfails
      · cases hdoes
        exact .granted hstage' hgrants
    · have hstage' : o.stage? id = some (.running state reply) := by
        rw [stage?, hslot, Option.map_some, hstage]
      obtain hfails | ⟨_, _, _, hasks⟩ | ⟨move, reach, hdoes, hmove, hreach⟩ :=
        hact ▸ isCall_actionAct (o := o) _ _
      · cases hfails
      · cases hasks
      · cases hdoes
        exact .taken hstage' hmove hreach
  | draws h value =>
    obtain ⟨slot, hslot, -, hact⟩ := act?_eq_some.mp h
    rcases hact with ⟨primitive, next, hstage, hact⟩ | ⟨state, reply, hstage, hact⟩
    · obtain hfails | ⟨move, reach, hdoes, -⟩ := grantAct_eq hact.symm
      · cases hfails
      · cases hdoes
    · have hstage' : o.stage? id = some (.running state reply) := by
        rw [stage?, hslot, Option.map_some, hstage]
      obtain hfails | ⟨_, _, _, hasks⟩ | ⟨move, reach, hdoes, -, -⟩ :=
        hact ▸ isCall_actionAct (o := o) _ _
      · cases hfails
      · cases hasks
        exact .taken hstage' rfl rfl
      · cases hdoes

end Outlook

namespace Deed.Fits

variable {program : Program σ μ} {id : OperationId} {o : Outlook σ μ} {deed : Deed σ μ}

/-- What a deed acts on is what the primitive acts on at which the body is parked. -/
theorem concerns (h : deed.Fits program id o) {object : Object} (hobject : deed.Concerns id object) :
    ∃ primitive next, o.stage? id = some (.parked primitive next) ∧
      primitive.object? id = some object := by
  cases h with
  | granted hstage hgrants =>
    cases hgrants <;> rcases hobject with hobject | hobject <;> cases hobject <;>
      exact ⟨_, _, hstage, rfl⟩
  | taken hstage hmove hreach =>
    rcases hobject with hobject | hobject
    · cases (Move.object?_of_isLocal hmove id).symm.trans hobject
    · cases (Reach.object?_of_isLocal hreach).symm.trans hobject

/-- A body begins only by its spawn. -/
theorem begins (h : deed.Fits program id o) {child : OperationId} {body : σ}
    (hbegins : deed.reach = .begins child body) :
    ∃ next, o.stage? id = some (.parked (.spawn child body) next) := by
  cases h with
  | granted hstage hgrants =>
    cases hgrants <;> cases hbegins
    exact ⟨_, hstage⟩
  | taken hstage hmove hreach =>
    subst hbegins
    cases hreach

/-- A wait that begins is not over. -/
theorem joins (h : deed.Fits program id o) {targets : List OperationId} {all : Bool} {next : σ}
    (hjoins : deed.move = .joins targets all next) : o.isJoined targets all = false := by
  cases h with
  | granted hstage hgrants =>
    cases hgrants <;> cases hjoins
    assumption
  | taken hstage hmove hreach =>
    subst hjoins
    cases hmove

/-- No deed examines the waits of others. -/
theorem wakes (h : deed.Fits program id o) (isCompleted : OperationId → Bool) :
    deed.reach ≠ .wakes isCompleted := by
  intro hwakes
  cases h with
  | granted hstage hgrants => cases hgrants <;> cases hwakes
  | taken hstage hmove hreach =>
    subst hwakes
    cases hreach

/-- What a deed reaches is registered if the primitive refers to what is registered. -/
theorem isKnown (h : deed.Fits program id o)
    (hknown : ∀ primitive next, o.stage? id = some (.parked primitive next) →
      primitive.IsKnown o.size o.holders.length)
    (hspawns : ∀ child body next, o.stage? id = some (.parked (.spawn child body) next) →
      child.index < o.size) : deed.reach.IsKnown o.size o.holders.length := by
  cases h with
  | granted hstage hgrants =>
    cases hgrants with
    | goesOn | joins | takes | awaits | queues => trivial
    | spawns child body => exact hspawns child body _ hstage
    | sends | acquires => exact hknown _ _ hstage
    | releases reply hholds =>
      rw [Outlook.holder?, Option.join_eq_some_iff] at hholds
      exact (List.getElem?_eq_some_iff.mp hholds).1
  | @taken _ _ _ reach _ _ hreach => cases reach <;> trivial

/-- What deeds of two operations do to the memory does not depend on their order. -/
theorem memory_comm {p q : OperationId}
    (hseparates : program.Separates p q (o.resumed p) (o.resumed q)) {a b : Deed σ μ}
    (ha : a.Fits program p o) (hb : b.Fits program q o) (memory : μ) :
    a.memory (b.memory memory) = b.memory (a.memory memory) := by
  cases ha with
  | granted => rfl
  | taken hp =>
    cases hb with
    | granted => rfl
    | taken hq => exact hseparates.memory _ (o.mem_resumed hp) _ (o.mem_resumed hq) memory

end Deed.Fits

/-! ### What an operation looks at -/

namespace Outlook

variable {program : Program σ μ} {id : OperationId} {o after : Outlook σ μ}

/-- What an operation looks at that is parked at a primitive: a receive looks into the inbox, a step
on a resource at its holder, and a join at the operations that it joins. -/
structure LooksAlike (id : OperationId) (o after : Outlook σ μ) (primitive : Primitive σ)
    (inbox new : Inbox) : Prop where
  inbox : primitive.object? id = some (.inbox, id.index) → new = inbox
  holder : ∀ resource : ResourceId, primitive.object? id = some (.resource, resource.index) →
    after.holder? resource = o.holder? resource
  joins : ∀ targets all, primitive = .join targets all →
    after.isJoined targets all = o.isJoined targets all

/-- What a primitive does depends only on what it looks at. -/
theorem grantAct_congr {primitive : Primitive σ} {inbox new : Inbox} (next : σ)
    (h : LooksAlike id o after primitive inbox new) :
    after.grantAct id next new primitive = o.grantAct id next inbox primitive := by
  cases primitive with
  | start | resume | spawn | send => rfl
  | join targets all => rw [grantAct, grantAct, h.joins targets all rfl]
  | receive events => rw [h.inbox rfl]; rfl
  | acquire resource => rw [grantAct, grantAct, h.holder resource rfl]
  | release resource => rw [grantAct, grantAct, h.holder resource rfl]

/-- More is registered, and what is new in the given deed is numbered as before. -/
structure Extends (o after : Outlook σ μ) (act : Act σ μ) : Prop where
  size : o.size ≤ after.size
  holders : o.holders.length ≤ after.holders.length
  knows : after.knows = o.knows
  growth : ∀ deed, act = .does deed → deed.reach.growth ≠ 0 → after.size = o.size
  gain : ∀ deed, act = .does deed → deed.reach.gain ≠ 0 →
    after.holders.length = o.holders.length

/-- What an action does depends only on what is registered. -/
theorem actionAct_congr {memory : μ → μ} {action : Action σ}
    (hact : o.actionAct memory action ≠ .fails)
    (h : o.Extends after (o.actionAct memory action)) :
    after.actionAct memory action = o.actionAct memory action := by
  have hif {first second : Prop} [Decidable first] [Decidable second] {act : Act σ μ}
      (himp : first → second) (hgoesOn : (if first then act else .fails) ≠ .fails) :
      (if second then act else .fails) = if first then act else .fails := by
    split at hgoesOn
    · next hfirst => rw [if_pos hfirst, if_pos (himp hfirst)]
    · exact absurd rfl hgoesOn
  have hknown {ids : List OperationId}
      (hids : (ids.all fun id => decide (id.index < o.size)) = true) :
      (ids.all fun id => decide (id.index < after.size)) = true := by
    rw [List.all_eq_true] at hids ⊢
    intro id hid
    exact decide_eq_true (Nat.lt_of_lt_of_le (of_decide_eq_true (hids id hid)) h.size)
  cases action with
  | work | finish | raise | giveUp => rfl
  | call request next =>
    cases request with
    | yield | receive | boolean | integer | assert | foreignCall => rfl
    | spawn name body =>
      have hsize : after.size = o.size := h.growth _ rfl Nat.one_ne_zero
      rw [actionAct, actionAct, callAct, callAct, hsize]
    | join targets => exact hif hknown hact
    | joinAny targets =>
      rw [actionAct, callAct] at hact
      rw [actionAct, actionAct, callAct, callAct]
      split
      · rfl
      · next hsome =>
        rw [if_neg hsome] at hact
        exact hif hknown hact
    | send target message => exact hif (Nat.lt_of_lt_of_le · h.size) hact
    | createResource =>
      have hlength : after.holders.length = o.holders.length := h.gain _ rfl Nat.one_ne_zero
      rw [actionAct, actionAct, callAct, callAct, hlength]
    | acquire resource => exact hif (Nat.lt_of_lt_of_le · h.holders) hact
    | release resource => exact hif (Nat.lt_of_lt_of_le · h.holders) hact
    | setMonitor monitor isHot => rw [actionAct, actionAct, callAct, callAct, h.knows]

/-- What an operation does next depends only on its own place, on what it looks at and on what is
registered. -/
theorem act?_congr {act : Act σ μ} {slot new : Slot σ} (hact : o.act? program id = some act)
    (hdoes : act ≠ .fails) (hslot : o.slots id = some slot) (hnew : after.slots id = some new)
    (hstatus : new.operation.status = slot.operation.status) (hstage : new.stage = slot.stage)
    (hlooks : ∀ primitive next, slot.stage = .parked primitive next →
      LooksAlike id o after primitive slot.inbox new.inbox)
    (hresume : ∀ state reply, slot.stage = .running state reply →
      (program.resume id state reply after.memory).1 = (program.resume id state reply o.memory).1)
    (hextends : o.Extends after act) : after.act? program id = some act := by
  obtain ⟨found, hfound, henabled, hact⟩ := act?_eq_some.mp hact
  obtain rfl := Option.some.inj (hfound.symm.trans hslot)
  refine act?_eq_some.mpr ⟨new, hnew, hstatus.trans henabled, ?_⟩
  rcases hact with ⟨primitive, next, hparked, rfl⟩ | ⟨state, reply, hrunning, rfl⟩
  · refine .inl ⟨primitive, next, hstage.trans hparked, ?_⟩
    exact (grantAct_congr next (hlooks primitive next hparked)).symm
  · refine .inr ⟨state, reply, hstage.trans hrunning, ?_⟩
    rw [hresume state reply hrunning]
    exact (actionAct_congr hdoes hextends).symm

end Outlook

/-! ### One deed beside another -/

/-- A move that does not pass the turn on leaves its operation enabled, and its body runs or has
ended. -/
theorem Move.apply_of_quiet {move : Move σ} (hquiet : move.isPoint = false) {slot : Slot σ}
    (henabled : slot.operation.status = .enabled) (id : OperationId) :
    (move.apply id slot).operation.status = .enabled ∧
      ∀ primitive next, (move.apply id slot).stage ≠ .parked primitive next := by
  cases move with
  | runs | leaves => exact ⟨henabled, fun _ _ heq => by cases heq⟩
  | takes =>
    refine ⟨?_, fun _ _ heq => by cases heq⟩
    simp [Move.apply, Operation.receive, henabled]
  | parks | joins | awaits | queues | finishes => cases hquiet

namespace Outlook

/-- An operation is enabled and refers to what is registered; if it spawns another, this is neither of
the two and has not completed. -/
structure Beside (p q : OperationId) (o : Outlook σ μ) : Prop where
  bounded : ∀ id : OperationId, o.size ≤ id.index → o.slots id = none
  enabled : o.HasEnabled p
  known : ∀ primitive next, o.stage? p = some (.parked primitive next) →
    primitive.IsKnown o.size o.holders.length
  spawns : ∀ child body next, o.stage? p = some (.parked (.spawn child body) next) →
    child.index < o.size ∧ (child ≠ p ∧ child ≠ q) ∧ o.isCompleted child = false

/-- Two operations are enabled and are not parked at primitives on the same object. -/
structure Apart (p q : OperationId) (o : Outlook σ μ) : Prop where
  ne : p ≠ q
  left : o.Beside p q
  right : o.Beside q p
  objects : ∀ a next b next', o.stage? p = some (.parked a next) →
    o.stage? q = some (.parked b next') →
      ∀ object, a.object? p = some object → b.object? q ≠ some object

/-- The join at which an operation is parked, if it is parked at one, is over in both of two outlooks
or in none. -/
def SameJoin (id : OperationId) (o after : Outlook σ μ) : Prop :=
  ∀ targets all next, o.stage? id = some (.parked (.join targets all) next) →
    after.isJoined targets all = o.isJoined targets all

variable {program : Program σ μ} {p q : OperationId} {o : Outlook σ μ} {a b : Deed σ μ}

/-- Operations stand apart in either order. -/
theorem Apart.symm (h : o.Apart p q) : o.Apart q p where
  ne := h.ne.symm
  left := h.right
  right := h.left
  objects b next' a next hb ha object hbObject haObject :=
    h.objects a next b next' ha hb object haObject hbObject

/-- Deeds of operations that are apart act on different objects. -/
theorem Apart.not_concerns (h : o.Apart p q) (ha : a.Fits program p o) (hb : b.Fits program q o)
    {object : Object} (haObject : a.Concerns p object) : ¬ b.Concerns q object := by
  intro hbObject
  obtain ⟨first, next, hfirst, hfirstObject⟩ := ha.concerns haObject
  obtain ⟨second, next', hsecond, hsecondObject⟩ := hb.concerns hbObject
  exact h.objects first next second next' hfirst hsecond object hfirstObject hsecondObject

/-- A deed refers to what is registered, and lets none of the two begin. -/
theorem Beside.isKnown (h : o.Beside p q) (ha : a.Fits program p o) : a.IsKnown p q o where
  reach := ha.isKnown h.known fun child body next hstage => (h.spawns child body next hstage).1
  begins child body hbegins := by
    obtain ⟨next, hstage⟩ := ha.begins hbegins
    exact (h.spawns child body next hstage).2.1
  wakes := ha.wakes

/-- What a deed of one operation does to the place of the other. -/
theorem Apart.slots_perform (h : o.Apart p q) (hb : b.Fits program q o) :
    (o.perform q b).slots p =
      (o.slots p).map fun slot => { slot with inbox := slot.inbox ++ b.reach.letters p } := by
  obtain ⟨slot, hslot, henabled⟩ := h.left.enabled.enabled
  have htouch := Reach.touch_of_spares (Reach.spares_of_enabled henabled
    fun child body hbegins => ((h.right.isKnown hb).begins child body hbegins).2)
  simp only [perform, remember, moved, Reach.apply, hslot, Reach.place_some h.left.enabled.known,
    htouch, Option.map_some, if_neg h.ne]

/-- The body of another operation stands where it stood. -/
theorem Apart.stage?_perform (h : o.Apart p q) (hb : b.Fits program q o) :
    (o.perform q b).stage? p = o.stage? p := by
  rw [stage?, h.slots_perform hb, Option.map_map, stage?]
  rfl

/-- What an operation does leaves the resumed body of one that stands apart from it alone. -/
theorem Apart.resumed_perform (h : o.Apart p q) (hb : b.Fits program q o) :
    (o.perform q b).resumed p = o.resumed p := by
  rw [resumed, h.stage?_perform hb, resumed]

/-- Another operation stays enabled. -/
theorem Apart.hasEnabled_perform (h : o.Apart p q) (hb : b.Fits program q o) :
    (o.perform q b).HasEnabled p := by
  obtain ⟨slot, hslot, henabled⟩ := h.left.enabled.enabled
  refine ⟨Nat.lt_of_lt_of_le h.left.enabled.known (Nat.le_add_right _ _), ?_⟩
  rw [h.slots_perform hb, hslot]
  exact ⟨_, rfl, henabled⟩

/-- The number of operations after a deed. -/
theorem size_perform (id : OperationId) (deed : Deed σ μ) (o : Outlook σ μ) :
    (o.perform id deed).size = o.size + deed.reach.growth := rfl

/-- The number of resources after a deed. -/
theorem length_holders_perform (id : OperationId) (deed : Deed σ μ) (o : Outlook σ μ) :
    (o.perform id deed).holders.length = o.holders.length + deed.reach.gain :=
  deed.reach.length_hold o.holders

/-- A resource that is not reached keeps its holder. -/
theorem holder?_perform {resource : ResourceId}
    (hreach : b.reach.object? ≠ some (.resource, resource.index)) :
    (o.perform q b).holder? resource = o.holder? resource := by
  change ((b.reach.hold o.holders)[resource.index]?).join = (o.holders[resource.index]?).join
  rcases b.reach.hold_cases with hkeeps | hcreates | ⟨other, holder, hobject, -, hhold⟩
  · rw [hkeeps]
  · rw [hcreates, Reach.hold, getElem?_snoc]
    split
    · next hnew =>
      rw [hnew, List.getElem?_eq_none (Nat.le_refl _)]
      rfl
    · rfl
  · have hne : other ≠ resource.index := by
      rintro rfl
      exact hreach hobject
    rw [hhold, List.getElem?_set_ne hne]

/-- What an operation does next it does also after a deed of another that is apart. -/
theorem Apart.act?_perform (h : o.Apart p q)
    (hseparates : program.Separates p q (o.resumed p) (o.resumed q))
    (hb : b.Fits program q o) {act : Act σ μ} (hact : o.act? program p = some act)
    (hdoes : act ≠ .fails)
    (hadd : ∀ deed, act = .does deed → deed.reach.AddApart b.reach)
    (hjoin : SameJoin p o (o.perform q b)) :
    (o.perform q b).act? program p = some act := by
  obtain ⟨slot, hslot, -⟩ := h.left.enabled.enabled
  have hnew := h.slots_perform hb
  rw [hslot, Option.map_some] at hnew
  have hstage {stage : Stage σ} (hstage : slot.stage = stage) : o.stage? p = some stage := by
    rw [stage?, hslot, Option.map_some, hstage]
  -- What the other operation reaches is no object of the primitive at which the body is parked.
  have hapart {primitive : Primitive σ} {next : σ} {object : Object}
      (hparked : slot.stage = .parked primitive next) (hobject : primitive.object? p = some object) :
      b.reach.object? ≠ some object := by
    intro hreach
    obtain ⟨other, next', hother, hotherObject⟩ := hb.concerns (.inr hreach)
    exact h.objects primitive next other next' (hstage hparked) hother object hobject hotherObject
  apply act?_congr hact hdoes hslot hnew rfl rfl
  · intro primitive next hparked
    refine ⟨fun hobject => ?_, fun resource hobject => ?_, fun targets all hjoins => ?_⟩
    · have hletters : b.reach.letters p = [] := by
        cases hreach : b.reach with
        | posts target envelope =>
          have hne : p ≠ target := by
            rintro rfl
            exact hapart hparked hobject (by rw [hreach]; rfl)
          rw [Reach.letters, if_neg hne]
        | _ => rfl
      rw [hletters]
      exact List.append_nil _
    · exact holder?_perform (hapart hparked hobject)
    · subst hjoins
      exact hjoin targets all next (hstage hparked)
  · intro state reply hrunning
    change (program.resume p state reply (b.memory o.memory)).1 = _
    cases hb with
    | granted => rfl
    | taken hother =>
      exact hseparates.left _ (o.mem_resumed (hstage hrunning)) _ (o.mem_resumed hother) _
  · refine ⟨Nat.le_add_right _ _, ?_, rfl, fun deed hdeed hnew => ?_, fun deed hdeed hnew => ?_⟩
    · rw [length_holders_perform]
      exact Nat.le_add_right _ _
    · have hnothing := (hadd deed hdeed).growth.resolve_left hnew
      change o.size + b.reach.growth = o.size
      rw [hnothing, Nat.add_zero]
    · rw [length_holders_perform, (hadd deed hdeed).gain.resolve_left hnew, Nat.add_zero]

/-- What an operation does it does also after a deed of another that is apart. -/
theorem Apart.moves_perform (h : o.Apart p q)
    (hseparates : program.Separates p q (o.resumed p) (o.resumed q))
    {value : Option Decision} (ha : o.Moves program p value a) (hb : b.Fits program q o)
    (hadd : a.reach.AddApart b.reach)
    (hjoin : SameJoin p o (o.perform q b)) :
    (o.perform q b).Moves program p value a := by
  cases ha with
  | does hact =>
    refine .does (h.act?_perform hseparates hb hact (fun heq => by cases heq) (fun deed hdeed => ?_)
      hjoin)
    cases hdeed
    exact hadd
  | draws hact value =>
    exact .draws (h.act?_perform hseparates hb hact (fun heq => by cases heq)
      (fun _ hdeed => by cases hdeed) hjoin) value

/-- Deeds of two operations that are apart may be carried out in either order. -/
theorem Apart.perform_perform (h : o.Apart p q)
    (hseparates : program.Separates p q (o.resumed p) (o.resumed q))
    (ha : a.Fits program p o) (hb : b.Fits program q o) (hadd : a.reach.AddApart b.reach) :
    (o.perform q b).perform p a = (o.perform p a).perform q b := by
  have hbKnown := h.right.isKnown hb
  apply perform_comm h.ne h.left.enabled h.right.enabled (h.left.isKnown ha)
  · exact ⟨hbKnown.reach, fun child body hbegins => (hbKnown.begins child body hbegins).symm,
      hbKnown.wakes⟩
  · exact ⟨fun _ haObject => h.not_concerns ha hb haObject, hadd,
      ha.memory_comm hseparates hb⟩

/-! ### What a deed leaves -/

/-- Whether another operation has completed. -/
theorem Beside.isCompleted_perform (h : o.Beside p q) (ha : a.Fits program p o) {id : OperationId}
    (hne : id ≠ p) : (o.perform p a).isCompleted id = o.isCompleted id := by
  have hslots : (o.perform p a).slots id = a.reach.place o.size id (o.slots id) := by
    simp only [perform, remember, moved, if_neg hne, Option.map_id']
    rfl
  rw [isCompleted, isCompleted, hslots]
  cases hreach : a.reach with
  | enrolls name =>
    rw [Reach.place]
    split
    · next hnew =>
      rw [h.bounded id (Nat.le_of_eq hnew.symm)]
      rfl
    · rfl
  | begins child body =>
    obtain ⟨next, hstage⟩ := ha.begins hreach
    obtain ⟨-, -, hchild⟩ := h.spawns child body next hstage
    rw [Reach.place_of_growth rfl, Option.any_map]
    by_cases hid : id = child
    · subst hid
      rw [isCompleted] at hchild
      rw [hchild]
      cases o.slots id with
      | none => rfl
      | some slot => simp [Reach.touch, Operation.create, Status.isCompleted]
    · congr 1
      funext slot
      simp [Reach.touch, hid]
  | posts target envelope =>
    rw [Reach.place_of_growth rfl, Option.any_map]
    congr 1
    funext slot
    by_cases hid : id = target
    · simp [Reach.touch, hid, (Operation.isWaking_rouse _).isCompleted_eq]
    · simp [Reach.touch, hid]
  | frees resource =>
    rw [Reach.place_of_growth rfl, Option.any_map]
    congr 1
    funext slot
    exact (Operation.isWaking_wakeOnRelease resource).isCompleted_eq _
  | wakes isCompleted => exact absurd hreach (ha.wakes isCompleted)
  | _ =>
    rw [Reach.place_of_growth rfl, Option.any_map]
    rfl

/-- The place of the operation itself. -/
theorem Beside.slots_perform_self (h : o.Beside p q) (ha : a.Fits program p o) :
    ∃ slot, slot.operation.status = .enabled ∧
      (o.perform p a).slots p = some (a.move.apply p slot) := by
  obtain ⟨slot, hslot, henabled⟩ := h.enabled.enabled
  have hspared := Reach.spares_of_enabled henabled
    fun child body hbegins => ((h.isKnown ha).begins child body hbegins).1
  refine ⟨a.reach.touch p slot, ?_, ?_⟩
  · rw [Reach.touch_of_spares hspared]
    exact henabled
  · simp only [perform, remember, moved, Reach.apply, hslot, Reach.place_some h.enabled.known,
      Option.map_some, if_true]

/-- An operation that has not passed the turn on is still enabled, and its body is not parked. -/
theorem Beside.perform_self (h : o.Beside p q) (ha : a.Fits program p o)
    (hquiet : a.move.isPoint = false) : (o.perform p a).HasEnabled p ∧
      ∀ primitive next, (o.perform p a).stage? p ≠ some (.parked primitive next) := by
  obtain ⟨slot, henabled, hslot⟩ := h.slots_perform_self ha
  obtain ⟨hstays, hstage⟩ := Move.apply_of_quiet hquiet henabled p
  refine ⟨⟨Nat.lt_of_lt_of_le h.enabled.known (Nat.le_add_right _ _), _, hslot, hstays⟩, ?_⟩
  intro primitive next hparked
  rw [stage?, hslot, Option.map_some] at hparked
  exact hstage primitive next (Option.some.inj hparked)

/-- An enabled operation has not completed. -/
theorem HasEnabled.isCompleted (h : o.HasEnabled p) : o.isCompleted p = false := by
  obtain ⟨slot, hslot, henabled⟩ := h.enabled
  rw [Outlook.isCompleted, hslot, Option.any_some, henabled]
  rfl

/-- A deed that does not pass the turn on completes nothing. -/
theorem Beside.isCompleted_perform_of_quiet (h : o.Beside p q) (ha : a.Fits program p o)
    (hquiet : a.move.isPoint = false) : (o.perform p a).isCompleted = o.isCompleted := by
  funext id
  by_cases hid : id = p
  · rw [hid, (h.perform_self ha hquiet).1.isCompleted, h.enabled.isCompleted]
  · exact h.isCompleted_perform ha hid

/-- What has completed stays completed. -/
theorem Beside.isCompleted_of_perform (h : o.Beside p q) (ha : a.Fits program p o)
    {id : OperationId} (hid : o.isCompleted id = true) : (o.perform p a).isCompleted id = true := by
  have hne : id ≠ p := by
    rintro rfl
    cases h.enabled.isCompleted.symm.trans hid
  rw [h.isCompleted_perform ha hne, hid]

/-- There are no operations beyond the number of operations. -/
theorem bounded_perform (hbounded : ∀ id : OperationId, o.size ≤ id.index → o.slots id = none)
    {id : OperationId} (hid : (o.perform p a).size ≤ id.index) :
    (o.perform p a).slots id = none := by
  have hnone : o.slots id = none := hbounded id (Nat.le_trans (Nat.le_add_right _ _) hid)
  have hplace : a.reach.place o.size id none = none := by
    cases hreach : a.reach with
    | enrolls name =>
      have hsize : o.size + a.reach.growth ≤ id.index := hid
      rw [hreach] at hsize
      exact if_neg (Nat.ne_of_gt hsize)
    | _ => rfl
  simp only [perform, remember, moved, Reach.apply, hnone, hplace, Option.map_none]

/-- What a primitive refers to stays registered. -/
theorem isKnown_perform {primitive : Primitive σ} (h : primitive.IsKnown o.size o.holders.length) :
    primitive.IsKnown (o.perform p a).size (o.perform p a).holders.length := by
  refine h.mono (Nat.le_add_right _ _) ?_
  rw [length_holders_perform]
  exact Nat.le_add_right _ _

/-- An operation stands beside another also after a deed of the other. -/
theorem Apart.beside_perform (h : o.Apart p q) (ha : a.Fits program p o) :
    (o.perform p a).Beside q p := by
  have hstage := h.symm.stage?_perform ha
  refine ⟨fun id => bounded_perform h.left.bounded, h.symm.hasEnabled_perform ha, ?_, ?_⟩
  · intro primitive next hparked
    exact isKnown_perform (h.right.known primitive next (hstage ▸ hparked))
  · intro child body next hparked
    obtain ⟨hchild, hne, hopen⟩ := h.right.spawns child body next (hstage ▸ hparked)
    refine ⟨Nat.lt_of_lt_of_le hchild (Nat.le_add_right _ _), hne, ?_⟩
    rw [h.left.isCompleted_perform ha hne.2, hopen]

/-- An operation stands beside another as long as it has not passed the turn on. -/
theorem Beside.perform_of_quiet (h : o.Beside p q) (ha : a.Fits program p o)
    (hquiet : a.move.isPoint = false) : (o.perform p a).Beside p q := by
  obtain ⟨henabled, hstage⟩ := h.perform_self ha hquiet
  refine ⟨fun id => bounded_perform h.bounded, henabled, ?_, ?_⟩
  · exact fun primitive next hparked => absurd hparked (hstage primitive next)
  · exact fun child body next hparked => absurd hparked (hstage _ next)

/-- Operations are apart as long as the one that has the turn has not passed it on. -/
theorem Apart.perform_of_quiet (h : o.Apart p q) (ha : a.Fits program p o)
    (hquiet : a.move.isPoint = false) : (o.perform p a).Apart p q where
  ne := h.ne
  left := h.left.perform_of_quiet ha hquiet
  right := h.beside_perform ha
  objects first next _ _ hfirst := absurd hfirst ((h.left.perform_self ha hquiet).2 first next)

end Outlook

end ScheduleExplorer
