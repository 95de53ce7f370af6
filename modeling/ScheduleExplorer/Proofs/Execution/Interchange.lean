import ScheduleExplorer.Proofs.Execution.Outlook

/-!
# Steps in either order

Two things that steps reach may be changed in either order if they differ and are not both new, and
so may a move and what another step reaches, unless the operation waits for it. So two steps of
different operations that act on different objects may be carried out in either order
(`Outlook.perform_comm`), and so may a step and the waking of operations whose wait for others is over.
-/

namespace ScheduleExplorer

variable {σ μ : Type}

namespace Reach

/-! ### Reaches -/

/-- Two things that are reached and differ may be changed in either order. -/
theorem touch_comm {a b : Reach σ} (hwakes : ∀ isCompleted, b ≠ .wakes isCompleted)
    (hapart : ∀ object, a.object? = some object → b.object? ≠ some object) (id : OperationId)
    (slot : Slot σ) : a.touch id (b.touch id slot) = b.touch id (a.touch id slot) := by
  have hrouse (event : EventType) (op : Operation) : op.create.rouse event = op.create :=
    (Operation.isWaking_rouse event).of_enabled rfl
  have hfree (resource : ResourceId) (op : Operation) :
      op.create.wakeOnRelease resource = op.create :=
    (Operation.isWaking_wakeOnRelease resource).of_enabled rfl
  have hready (isCompleted : OperationId → Bool) (op : Operation) :
      op.create.enableIfReady isCompleted = op.create :=
    (Operation.isWaking_enableIfReady isCompleted).of_enabled rfl
  have hpost (target child : OperationId) (envelope : Envelope) (body : σ) :
      (posts target envelope).touch id ((begins child body).touch id slot) =
        (begins child body).touch id ((posts target envelope).touch id slot) := by
    by_cases htarget : id = target
    · subst htarget
      by_cases hchild : id = child <;> simp [touch, hchild, hrouse, Operation.create_rouse]
    · simp [touch, htarget]
  cases a with
  | nothing | holds | creates | enrolls => rfl
  | posts target envelope =>
    cases b with
    | nothing | holds | creates | enrolls => rfl
    | posts other letter =>
      have hne : target ≠ other := by
        rintro rfl
        exact hapart _ rfl rfl
      by_cases htarget : id = target <;> simp [touch, htarget, hne]
    | begins child body => exact hpost target child envelope body
    | frees resource =>
      by_cases htarget : id = target <;> simp [touch, htarget, Operation.rouse_wakeOnRelease]
    | wakes isCompleted => exact absurd rfl (hwakes isCompleted)
  | begins child body =>
    cases b with
    | nothing | holds | creates | enrolls => rfl
    | posts target envelope => exact (hpost target child envelope body).symm
    | begins other body' =>
      have hne : child ≠ other := by
        rintro rfl
        exact hapart _ rfl rfl
      by_cases hchild : id = child <;> simp [touch, hchild, hne]
    | frees resource =>
      by_cases hchild : id = child <;> simp [touch, hchild, hfree, Operation.create_wakeOnRelease]
    | wakes isCompleted => exact absurd rfl (hwakes isCompleted)
  | frees resource =>
    cases b with
    | nothing | holds | creates | enrolls => rfl
    | posts target envelope =>
      by_cases htarget : id = target <;> simp [touch, htarget, Operation.rouse_wakeOnRelease]
    | begins child body =>
      by_cases hchild : id = child <;> simp [touch, hchild, hfree, Operation.create_wakeOnRelease]
    | frees other =>
      have hne : resource ≠ other := by
        rintro rfl
        exact hapart _ rfl rfl
      simp [touch, Operation.wakeOnRelease_comm _ _ hne]
    | wakes isCompleted => exact absurd rfl (hwakes isCompleted)
  | wakes isCompleted =>
    cases b with
    | nothing | holds | creates | enrolls => rfl
    | posts target envelope =>
      by_cases htarget : id = target <;> simp [touch, htarget, Operation.rouse_enableIfReady]
    | begins child body =>
      by_cases hchild : id = child <;> simp [touch, hchild, hready, Operation.create_enableIfReady]
    | frees resource => simp [touch, Operation.wakeOnRelease_enableIfReady]
    | wakes isCompleted => exact absurd rfl (hwakes isCompleted)

/-- What is reached is registered, given the numbers of operations and of resources. -/
def IsKnown (size resources : Nat) : Reach σ → Prop
  | posts target _ => target.index < size
  | begins child _ => child.index < size
  | holds resource _ | frees resource => resource.index < resources
  | nothing | creates | enrolls _ | wakes _ => True

/-- An operation that is new is not reached. -/
theorem touch_new {b : Reach σ} {size resources : Nat} (hknown : b.IsKnown size resources)
    {id : OperationId} (hid : id.index = size) (name : String) :
    b.touch id ⟨Operation.new id name, .announced, []⟩ =
      ⟨Operation.new id name, .announced, []⟩ := by
  have hne {other : OperationId} (hother : other.index < size) : id ≠ other := by
    rintro rfl
    omega
  cases b with
  | posts target envelope => rw [touch, if_neg (hne hknown)]
  | begins child body => rw [touch, if_neg (hne hknown)]
  | _ => rfl

variable {a b : Reach σ} {size resources : Nat}

/-- Where nothing is new, every place is changed by itself. -/
theorem place_of_growth (h : a.growth = 0) (id : OperationId) (slot : Option (Slot σ)) :
    a.place size id slot = slot.map fun slot => a.touch id slot := by
  cases a <;> first | rfl | cases h

/-- An operation that is registered is touched. -/
theorem place_some {id : OperationId} (hid : id.index < size) (a : Reach σ) (slot : Slot σ) :
    a.place size id (some slot) = some (a.touch id slot) := by
  cases a with
  | enrolls name => exact if_neg (Nat.ne_of_lt hid)
  | _ => rfl

/-- A new operation and another thing that is reached. -/
theorem place_enrolls_comm (hb : b.growth = 0) (hknown : b.IsKnown size resources) (name : String)
    (id : OperationId) (slot : Option (Slot σ)) :
    (enrolls name).place size id (b.place size id slot) =
      b.place (size + 1) id ((enrolls name).place size id slot) := by
  rw [place_of_growth hb, place_of_growth hb]
  by_cases hid : id.index = size
  · simp [place, hid, touch_new hknown hid]
  · simp [place, hid]

/-- The places of two effects on different objects commute. -/
theorem place_comm (hwakes : ∀ isCompleted, b ≠ .wakes isCompleted)
    (hapart : ∀ object, a.object? = some object → b.object? ≠ some object)
    (ha : a.IsKnown size resources) (hb : b.IsKnown size resources)
    (hgrowth : a.growth = 0 ∨ b.growth = 0) (id : OperationId) (slot : Option (Slot σ)) :
    a.place (size + b.growth) id (b.place size id slot) =
      b.place (size + a.growth) id (a.place size id slot) := by
  by_cases hbGrowth : b.growth = 0
  · by_cases haGrowth : a.growth = 0
    · rw [place_of_growth haGrowth, place_of_growth haGrowth, place_of_growth hbGrowth,
        place_of_growth hbGrowth, Option.map_map, Option.map_map]
      congr 1
      funext slot
      exact touch_comm hwakes hapart id slot
    · cases a with
      | enrolls name =>
        rw [hbGrowth]
        exact place_enrolls_comm hbGrowth hb name id slot
      | _ => exact absurd rfl haGrowth
  · have haGrowth := hgrowth.resolve_right hbGrowth
    cases b with
    | enrolls name =>
      rw [haGrowth]
      exact (place_enrolls_comm haGrowth ha name id slot).symm
    | _ => exact absurd rfl hbGrowth

/-- The holders stay as they are, or there is a new resource, or one is given away or freed. -/
theorem hold_cases (a : Reach σ) : (∀ holders, a.hold holders = holders) ∨ a = .creates ∨
    ∃ resource holder, a.object? = some (.resource, resource) ∧
      (∀ size resources, a.IsKnown size resources → resource < resources) ∧
      ∀ holders, a.hold holders = holders.set resource holder := by
  cases a with
  | creates => exact .inr (.inl rfl)
  | holds resource holder =>
    exact .inr (.inr ⟨resource.index, some holder, rfl, fun _ _ h => h, fun _ => rfl⟩)
  | frees resource => exact .inr (.inr ⟨resource.index, none, rfl, fun _ _ h => h, fun _ => rfl⟩)
  | _ => exact .inl fun _ => rfl

/-- The holders after two effects on different objects do not depend on their order. -/
theorem hold_comm (hapart : ∀ object, a.object? = some object → b.object? ≠ some object)
    {holders : List (Option OperationId)} (ha : a.IsKnown size holders.length)
    (hb : b.IsKnown size holders.length) (hgain : a.gain = 0 ∨ b.gain = 0) :
    a.hold (b.hold holders) = b.hold (a.hold holders) := by
  have hset {reach : Reach σ} {resource : Nat} {holder : Option OperationId}
      (hresource : resource < holders.length)
      (hhold : ∀ holders, reach.hold holders = holders.set resource holder) :
      (creates : Reach σ).hold (reach.hold holders) = reach.hold ((creates : Reach σ).hold holders) := by
    rw [hhold, hhold]
    exact (List.set_append_left _ _ hresource).symm
  rcases a.hold_cases with hkeeps | rfl | ⟨first, x, hfirst, hfirstKnown, hfirstHold⟩
  · rw [hkeeps, hkeeps]
  · rcases b.hold_cases with hkeeps | rfl | ⟨second, y, -, hknown, hhold⟩
    · rw [hkeeps, hkeeps]
    · simp [gain] at hgain
    · exact hset (hknown _ _ hb) hhold
  · rcases b.hold_cases with hkeeps | rfl | ⟨second, y, hsecond, -, hsecondHold⟩
    · rw [hkeeps, hkeeps]
    · exact (hset (hfirstKnown _ _ ha) hfirstHold).symm
    · rw [hfirstHold, hfirstHold, hsecondHold, hsecondHold]
      apply List.set_comm
      rintro rfl
      exact hapart _ hfirst hsecond

/-- The number of resources. -/
theorem length_hold (a : Reach σ) (holders : List (Option OperationId)) :
    (a.hold holders).length = holders.length + a.gain := by
  cases a <;> simp [hold, gain]

/-- What is reached is not in both cases a new operation, and not in both cases a new resource, so
that nothing is numbered in the order of the two. -/
structure AddApart (a b : Reach σ) : Prop where
  growth : a.growth = 0 ∨ b.growth = 0
  gain : a.gain = 0 ∨ b.gain = 0

/-- Additions stay apart in either order. -/
theorem AddApart.symm (h : a.AddApart b) : b.AddApart a :=
  ⟨h.growth.symm, h.gain.symm⟩

/-- Nothing is reached. -/
theorem apply_nothing (o : Outlook σ μ) : (nothing : Reach σ).apply o = o := by
  apply Outlook.ext <;> try rfl
  funext id
  exact Option.map_id'

/-- Two things that are reached and differ, and are not both new, may be changed in either order. -/
theorem apply_comm {o : Outlook σ μ} (hwakes : ∀ isCompleted, b ≠ .wakes isCompleted)
    (hapart : ∀ object, a.object? = some object → b.object? ≠ some object)
    (ha : a.IsKnown o.size o.holders.length) (hb : b.IsKnown o.size o.holders.length)
    (hadd : a.AddApart b) : a.apply (b.apply o) = b.apply (a.apply o) := by
  apply Outlook.ext
  · simp only [apply]
    omega
  · funext id
    exact place_comm hwakes hapart ha hb hadd.growth id _
  · exact hold_comm hapart ha hb hadd.gain
  · rfl
  · rfl

/-! ### Moves and reaches in either order -/

/-- The messages that arrive for an operation. -/
def letters (id : OperationId) : Reach σ → Inbox
  | posts target envelope => if id = target then [envelope] else []
  | _ => []

/-- The operation of a slot is not woken, and its body does not begin. -/
def Spares (id : OperationId) (op : Operation) : Reach σ → Prop
  | posts target envelope => id = target → op.awaitsEvent envelope.message.event = false
  | begins child _ => child ≠ id
  | frees resource => op.awaitsResource resource = false
  | wakes isCompleted => op.waitIsOver isCompleted = false
  | nothing | holds .. | creates | enrolls _ => True

/-- A slot that is spared may get a message, and that is all. -/
theorem touch_of_spares {id : OperationId} {slot : Slot σ} (h : a.Spares id slot.operation) :
    a.touch id slot = { slot with inbox := slot.inbox ++ a.letters id } := by
  cases a with
  | posts target envelope =>
    by_cases htarget : id = target
    · simp [touch, letters, htarget, (Operation.isWaking_rouse _).same _ (h htarget)]
    · simp [touch, letters, htarget]
  | begins child body => simp [touch, letters, Ne.symm h]
  | frees resource => simp [touch, letters, (Operation.isWaking_wakeOnRelease _).same _ h]
  | wakes isCompleted => simp [touch, letters, (Operation.isWaking_enableIfReady _).same _ h]
  | _ => simp [touch, letters]

/-- An operation is spared by what it does not wait for. -/
theorem spares_of {id : OperationId} {op : Operation}
    (hbegins : ∀ child body, a = .begins child body → child ≠ id)
    (hposts : op.status = .blockedOnReceive → ∀ envelope, a ≠ .posts id envelope)
    (hfrees : ∀ resource, op.awaitsResource resource = true → a ≠ .frees resource)
    (hwakes : ∀ isCompleted, a = .wakes isCompleted → op.waitIsOver isCompleted = false) :
    a.Spares id op := by
  cases a with
  | posts target envelope =>
    rintro rfl
    rw [Bool.eq_false_iff]
    exact fun hawaits => hposts (Operation.status_of_awaitsEvent hawaits) envelope rfl
  | begins child body => exact hbegins child body rfl
  | frees resource =>
    refine Bool.eq_false_iff.mpr ?_
    exact fun hawaits => hfrees resource hawaits rfl
  | wakes isCompleted => exact hwakes isCompleted rfl
  | nothing | holds | creates | enrolls => trivial

/-- An enabled operation is spared unless its body begins. -/
theorem spares_of_enabled {id : OperationId} {op : Operation} (henabled : op.status = .enabled)
    (hbegins : ∀ child body, a = .begins child body → child ≠ id) : a.Spares id op := by
  apply spares_of hbegins
  · simp [henabled]
  · simp [Operation.awaitsResource, henabled]
  · simp [Operation.waitIsOver, henabled]

/-- A move leaves its operation waiting for nothing that is reached. -/
theorem spares_apply {id : OperationId} {slot : Slot σ} {move : Move σ}
    (henabled : slot.operation.status = .enabled)
    (hbegins : ∀ child body, a = .begins child body → child ≠ id)
    (hapart : ∀ object, move.object? id = some object → a.object? ≠ some object)
    (hjoins : ∀ isCompleted targets all next, a = .wakes isCompleted →
      move = .joins targets all next → joinIsOver isCompleted targets all = false) :
    a.Spares id (move.apply id slot).operation := by
  have hisEnabled : slot.operation.isEnabled = true := by
    simp [Operation.isEnabled, henabled, Status.isEnabled]
  have hkeeps {op : Operation} (hop : op.status = .enabled) : a.Spares id op :=
    spares_of_enabled hop hbegins
  cases move with
  | runs next reply => exact hkeeps henabled
  | takes rest next reply =>
    apply hkeeps
    simp [Move.apply, Operation.receive, henabled]
  | parks primitive next =>
    apply hkeeps
    rw [← henabled]
    cases primitive <;> rfl
  | joins targets all next =>
    apply spares_of hbegins
    · cases all <;> simp [Move.apply, Operation.waitTasks, hisEnabled]
    · cases all <;> simp [Move.apply, Operation.waitTasks, hisEnabled, Operation.awaitsResource]
    · intro isCompleted ha
      have hover := hjoins isCompleted targets all next ha rfl
      cases all <;> simpa [Move.apply, Operation.waitTasks, hisEnabled, Operation.waitIsOver,
        joinIsOver] using hover
  | awaits events =>
    apply spares_of hbegins
    · rintro - envelope rfl
      exact hapart _ rfl rfl
    · simp [Move.apply, Operation.waitEvents, hisEnabled, Operation.awaitsResource]
    · simp [Move.apply, Operation.waitEvents, hisEnabled, Operation.waitIsOver]
  | queues resource =>
    apply spares_of hbegins
    · simp [Move.apply, Operation.waitResource, hisEnabled]
    · rintro other hawaits rfl
      have hsame : resource = other := by
        simpa [Move.apply, Operation.waitResource, hisEnabled, Operation.awaitsResource] using hawaits
      subst hsame
      exact hapart _ rfl rfl
    · simp [Move.apply, Operation.waitResource, hisEnabled, Operation.waitIsOver]
  | finishes =>
    apply spares_of hbegins
    · simp [Move.apply, Operation.complete]
    · simp [Move.apply, Operation.complete, Operation.awaitsResource]
    · simp [Move.apply, Operation.complete, Operation.waitIsOver]
  | leaves => exact hkeeps henabled

/-- A move and what another step reaches may come in either order. -/
theorem touch_apply {id : OperationId} {slot : Slot σ} {move : Move σ}
    (henabled : slot.operation.status = .enabled)
    (hbegins : ∀ child body, a = .begins child body → child ≠ id)
    (hapart : ∀ object, move.object? id = some object → a.object? ≠ some object)
    (hjoins : ∀ isCompleted targets all next, a = .wakes isCompleted →
      move = .joins targets all next → joinIsOver isCompleted targets all = false) :
    a.touch id (move.apply id slot) = move.apply id (a.touch id slot) := by
  rw [touch_of_spares (spares_apply henabled hbegins hapart hjoins),
    touch_of_spares (spares_of_enabled henabled hbegins)]
  have hletters : move.object? id = some (.inbox, id.index) → a.letters id = [] := by
    intro hmove
    cases a with
    | posts target envelope =>
      have hne : id ≠ target := by
        rintro rfl
        exact hapart _ hmove rfl
      simp [letters, hne]
    | _ => rfl
  cases move with
  | takes rest next reply => simp [Move.apply, hletters rfl]
  | _ => rfl

end Reach

namespace Outlook

/-- The operation with a number is there, and it is enabled. -/
structure HasEnabled (id : OperationId) (o : Outlook σ μ) : Prop where
  known : id.index < o.size
  enabled : ∃ slot, o.slots id = some slot ∧ slot.operation.status = .enabled

variable {o : Outlook σ μ} {p q id : OperationId} {reach : Reach σ} {move : Move σ}

/-- What is reached leaves an enabled operation enabled. -/
theorem HasEnabled.apply (h : o.HasEnabled id)
    (hbegins : ∀ child body, reach = .begins child body → child ≠ id) :
    (reach.apply o).HasEnabled id := by
  obtain ⟨slot, hslot, henabled⟩ := h.enabled
  refine ⟨Nat.lt_of_lt_of_le h.known (Nat.le_add_right _ _), reach.touch id slot, ?_, ?_⟩
  · simp only [Reach.apply, hslot, Reach.place_some h.known]
  · rw [Reach.touch_of_spares (Reach.spares_of_enabled henabled hbegins)]
    exact henabled

/-- Moves of different bodies. -/
theorem moved_comm (hne : p ≠ q) (a b : Move σ) (o : Outlook σ μ) :
    (o.moved q b).moved p a = (o.moved p a).moved q b := by
  apply Outlook.ext <;> try rfl
  funext id
  simp only [moved, Option.map_map]
  congr 1
  funext slot
  by_cases hp : id = p
  · subst hp
    simp [hne]
  · simp [hp]

/-- A move of an enabled operation and what another step reaches. -/
theorem apply_moved (h : o.HasEnabled id)
    (hbegins : ∀ child body, reach = .begins child body → child ≠ id)
    (hapart : ∀ object, move.object? id = some object → reach.object? ≠ some object)
    (hjoins : ∀ isCompleted targets all next, reach = .wakes isCompleted →
      move = .joins targets all next → joinIsOver isCompleted targets all = false) :
    reach.apply (o.moved id move) = (reach.apply o).moved id move := by
  obtain ⟨slot, hslot, henabled⟩ := h.enabled
  apply Outlook.ext <;> try rfl
  funext other
  by_cases hgrowth : reach.growth = 0
  · simp only [Reach.apply, moved, Reach.place_of_growth hgrowth, Option.map_map]
    by_cases hother : other = id
    · subst hother
      simp [hslot, Reach.touch_apply henabled hbegins hapart hjoins]
    · simp [hother, Function.comp_def]
  · cases reach with
    | enrolls name =>
      have hold := Nat.ne_of_lt h.known
      by_cases hnew : other.index = o.size
      · have hother : other ≠ id := by
          rintro rfl
          exact hold hnew
        simp [Reach.apply, moved, Reach.place, hnew, hother]
      · simp [Reach.apply, moved, Reach.place, hnew]
    | _ => exact absurd rfl hgrowth

end Outlook

namespace Deed

/-- What a deed of an operation acts on. -/
def Concerns (id : OperationId) (deed : Deed σ μ) (object : Object) : Prop :=
  deed.move.object? id = some object ∨ deed.reach.object? = some object

/-- A deed refers to what is registered, and the body that it lets begin is none of the two. -/
structure IsKnown (p q : OperationId) (o : Outlook σ μ) (deed : Deed σ μ) : Prop where
  reach : deed.reach.IsKnown o.size o.holders.length
  begins : ∀ child body, deed.reach = .begins child body → child ≠ p ∧ child ≠ q
  wakes : ∀ isCompleted, deed.reach ≠ .wakes isCompleted

/-- Two deeds act on different objects and on different parts of the memory, and they do not add
what has to be numbered in their order. -/
structure Apart (p q : OperationId) (a b : Deed σ μ) : Prop where
  objects : ∀ object, a.Concerns p object → ¬ b.Concerns q object
  adds : a.reach.AddApart b.reach
  memory : ∀ memory, a.memory (b.memory memory) = b.memory (a.memory memory)

end Deed

namespace Outlook

variable {o : Outlook σ μ} {p q : OperationId} {a b : Deed σ μ}

/-- Deeds of different operations that are enabled and that act on different things may be carried
out in either order. -/
theorem perform_comm (hne : p ≠ q) (hp : o.HasEnabled p) (hq : o.HasEnabled q)
    (ha : a.IsKnown p q o) (hb : b.IsKnown p q o) (hapart : a.Apart p q b) :
    (o.perform q b).perform p a = (o.perform p a).perform q b := by
  have haBegins {child : OperationId} {body : σ} (h : a.reach = .begins child body) : child ≠ q :=
    (ha.begins child body h).2
  have hbBegins {child : OperationId} {body : σ} (h : b.reach = .begins child body) : child ≠ p :=
    (hb.begins child body h).1
  have hreaches : a.reach.apply (b.reach.apply o) = b.reach.apply (a.reach.apply o) :=
    Reach.apply_comm hb.wakes (fun object haObject hbObject =>
      hapart.objects object (.inr haObject) (.inr hbObject)) ha.reach hb.reach hapart.adds
  have hfirst : a.reach.apply ((b.reach.apply o).moved q b.move) =
      (a.reach.apply (b.reach.apply o)).moved q b.move :=
    apply_moved (hq.apply fun child body h => (hb.begins child body h).2)
      (fun _ _ => haBegins) (fun object hbObject haObject =>
        hapart.objects object (.inr haObject) (.inl hbObject))
      fun isCompleted _ _ _ hwakes => absurd hwakes (ha.wakes isCompleted)
  have hsecond : b.reach.apply ((a.reach.apply o).moved p a.move) =
      (b.reach.apply (a.reach.apply o)).moved p a.move :=
    apply_moved (hp.apply fun child body h => (ha.begins child body h).1)
      (fun _ _ => hbBegins) (fun object haObject hbObject =>
        hapart.objects object (.inl haObject) (.inr hbObject))
      fun isCompleted _ _ _ hwakes => absurd hwakes (hb.wakes isCompleted)
  calc (o.perform q b).perform p a
      = ((a.reach.apply ((b.reach.apply o).moved q b.move)).moved p a.move).remember
          fun memory => a.memory (b.memory memory) := rfl
    _ = (((b.reach.apply (a.reach.apply o)).moved p a.move).moved q b.move).remember
          fun memory => b.memory (a.memory memory) := by
        rw [hfirst, hreaches, moved_comm hne, funext hapart.memory]
    _ = (o.perform p a).perform q b := by
        rw [← hsecond]
        rfl

/-- A deed of an enabled operation, and the waking of operations whose wait for others is over, may
come in either order if the deed does not begin a wait that is over. -/
theorem wakes_perform {isCompleted : OperationId → Bool} (hp : o.HasEnabled p)
    (ha : a.IsKnown p q o)
    (hjoins : ∀ targets all next, a.move = .joins targets all next →
      joinIsOver isCompleted targets all = false) :
    (Reach.wakes isCompleted).apply (o.perform p a) =
      ((Reach.wakes isCompleted).apply o).perform p a := by
  have hmoved : (Reach.wakes isCompleted).apply ((a.reach.apply o).moved p a.move) =
      ((Reach.wakes isCompleted).apply (a.reach.apply o)).moved p a.move := by
    apply apply_moved (hp.apply fun child body h => (ha.begins child body h).1)
    · exact fun _ _ heq => by cases heq
    · exact fun _ _ heq => by cases heq
    · rintro _ targets all next ⟨⟩ hmove
      exact hjoins targets all next hmove
  have hreaches : (Reach.wakes isCompleted).apply (a.reach.apply o) =
      a.reach.apply ((Reach.wakes isCompleted).apply o) :=
    Reach.apply_comm ha.wakes (fun _ heq => by cases heq) trivial ha.reach ⟨.inl rfl, .inl rfl⟩
  calc (Reach.wakes isCompleted).apply (o.perform p a)
      = ((Reach.wakes isCompleted).apply ((a.reach.apply o).moved p a.move)).remember a.memory := rfl
    _ = (((Reach.wakes isCompleted).apply o).perform p a) := by
        rw [hmoved, hreaches]
        rfl

end Outlook

end ScheduleExplorer
