import Mathlib.Data.Set.Function
import ScheduleExplorer.Proofs.State.Codes
import ScheduleExplorer.State.Snapshot

/-!
# What fingerprints tell apart

Two states have the same fingerprint at a level exactly if they agree in what the level compares, as long
as the hash does not take two of the byte strings that it is given for these states to one word. The lists
that a level compares are written without a mark between them; what each code tells does not depend on
what is written after it.
-/

namespace ScheduleExplorer

open Fingerprint (Bytes Tells)

/-- What the levels compare of an operation: its status, and the kind and the target of its next step. -/
def Operation.view (op : Operation) : Status × StepKind × TargetSort × Nat :=
  (op.status, op.kind, op.target, op.targetId)

/-- What the full level compares of an envelope: its sender and the text of its payload. -/
def Envelope.letter (envelope : Envelope) : OperationId × String :=
  (envelope.sender, envelope.message.payload.render)

/-- The word at a level is the one that was given for it. -/
theorem StateHashes.atLevel_ofLevels (f : AbstractionLevel → UInt64) (level : AbstractionLevel) :
    (StateHashes.ofLevels f).atLevel level = f level := by
  cases level <;> rfl

namespace Snapshot

/-- What the levels compare of the operations, in the order of their numbers. -/
def tasks (state : Snapshot) : List (Status × StepKind × TargetSort × Nat) :=
  state.operations.map Operation.view

/-- The types of the messages in each inbox, oldest first. -/
def events (state : Snapshot) : List (List EventType) :=
  state.inboxes.map (List.map (·.message.event))

/-- The senders and the payload texts in each inbox, oldest first. -/
def letters (state : Snapshot) : List (List (OperationId × String)) :=
  state.inboxes.map (List.map Envelope.letter)

/-- Every number of a state is a machine word. -/
structure FitsWords (state : Snapshot) : Prop where
  targets : ∀ op ∈ state.operations, op.targetId < Nat.pow 2 64
  inboxes : ∀ inbox ∈ state.inboxes, inbox.length < Nat.pow 2 64
  senders : ∀ inbox ∈ state.inboxes, ∀ envelope ∈ inbox, envelope.sender.index < Nat.pow 2 64
  resources : state.holders.length < Nat.pow 2 64
  holders : ∀ holder ∈ state.holders, ∀ id ∈ holder, id.index < Nat.pow 2 64

/-- The byte strings that are hashed for the fingerprints of a state. -/
def hashedBytes (state : Snapshot) : List Bytes :=
  [state.taskBytes, state.inboxBytes, state.holderBytes, state.customBytes, state.fullBytes]

/-! ### The parts of a state -/

/-- The code of the position of a constructor tells the constructor. -/
theorem tells_position {κ : Type} (position : κ → Nat)
    (hposition : ∀ a b, position a = position b ↔ a = b) (hbound : ∀ a, position a < Nat.pow 2 64)
    (part : Operation → κ) (Fits : Operation → Prop) :
    Tells (fun op => Fingerprint.ofNat (position (part op))) Fits part :=
  (Fingerprint.tells_ofNat.comp fun op _ => hbound (part op)).of_view fun _ _ => hposition _ _

/-- The bytes of an operation tell what is seen of it. -/
theorem tells_operationBytes :
    Tells operationBytes (fun op => op.targetId < Nat.pow 2 64) Operation.view := by
  have hstatus := tells_position Status.position
    (fun a b => by cases a <;> cases b <;> decide) (fun a => by cases a <;> decide)
  have hkind := tells_position StepKind.position
    (fun a b => by cases a <;> cases b <;> decide) (fun a => by cases a <;> decide)
  have htarget := tells_position TargetSort.position
    (fun a b => by cases a <;> cases b <;> decide) (fun a => by cases a <;> decide)
  have hid : Tells (fun op : Operation => Fingerprint.ofNat op.targetId)
      (fun op => op.targetId < Nat.pow 2 64) Operation.targetId :=
    Fingerprint.tells_ofNat.comp fun _ h => h
  refine ((((hstatus Operation.status _).append (hkind Operation.kind _)).append
    (htarget Operation.target _)).append hid).of_view fun a b => ?_
  simp only [Operation.view, Prod.mk.injEq, and_assoc]

/-- The bytes of the tasks tell the tasks. -/
theorem taskBytes_eq_iff {s t : Snapshot} (hs : s.FitsWords) (ht : t.FitsWords) :
    s.taskBytes = t.taskBytes ↔ s.tasks = t.tasks :=
  tells_operationBytes.flatMap
    (fun op => List.append_ne_nil_of_right_ne_nil _ (Fingerprint.ofNat_ne_nil op.targetId))
    hs.targets ht.targets

/-- The bytes of the inboxes tell the events in them. -/
theorem inboxBytes_eq_iff {s t : Snapshot} (hs : s.FitsWords) (ht : t.FitsWords) :
    s.inboxBytes = t.inboxBytes ↔ s.events = t.events := by
  have hevent : Tells (fun envelope : Envelope => Fingerprint.ofWord envelope.message.event.code)
      (fun _ => True) fun envelope => envelope.message.event :=
    (Fingerprint.tells_ofWord.comp fun _ _ => trivial).of_view fun a b => by
      rw [id, id, ← EventType.mk.injEq]
  exact (Fingerprint.tells_ofList hevent).flatMap (Fingerprint.ofList_ne_nil _)
    (fun inbox hinbox => ⟨hs.inboxes inbox hinbox, fun _ _ => trivial⟩)
    (fun inbox hinbox => ⟨ht.inboxes inbox hinbox, fun _ _ => trivial⟩)

/-- The bytes of the holders tell the holders. -/
theorem holderBytes_eq_iff {s t : Snapshot} (hs : s.FitsWords) (ht : t.FitsWords) :
    s.holderBytes = t.holderBytes ↔ s.holders = t.holders := by
  have hid : Tells (fun id : OperationId => Fingerprint.ofNat id.index) (·.index < Nat.pow 2 64) id :=
    (Fingerprint.tells_ofNat.comp fun _ h => h).of_view fun a b => by
      rw [id, id, id, id, ← OperationId.mk.injEq]
  have htells := (Fingerprint.tells_ofList (Fingerprint.tells_ofOption hid)).eq_iff
    ⟨hs.resources, hs.holders⟩ ⟨ht.resources, ht.holders⟩
  rwa [Option.map_id, List.map_id, List.map_id] at htells

/-- The bytes of an envelope tell its letter. -/
theorem tells_envelopeBytes :
    Tells envelopeBytes (fun envelope => envelope.sender.index < Nat.pow 2 64) Envelope.letter := by
  have hsender : Tells (fun envelope : Envelope => Fingerprint.ofNat envelope.sender.index)
      (fun envelope => envelope.sender.index < Nat.pow 2 64) fun envelope => envelope.sender.index :=
    Fingerprint.tells_ofNat.comp fun _ h => h
  have hpayload : Tells (fun envelope : Envelope => Fingerprint.ofString envelope.message.payload.render)
      (fun envelope => envelope.sender.index < Nat.pow 2 64)
      fun envelope => envelope.message.payload.render :=
    Fingerprint.tells_ofString.comp fun _ _ => trivial
  refine (hsender.append hpayload).of_view fun a b => ?_
  simp only [Envelope.letter, Prod.mk.injEq, ← OperationId.mk.injEq]

/-- Once the events of all inboxes are known, it is known where an inbox ends. -/
theorem flatten_letters_eq_iff {s t : Snapshot} (hevents : s.events = t.events) :
    s.letters.flatten = t.letters.flatten ↔ s.letters = t.letters := by
  have hlengths : s.letters.map List.length = t.letters.map List.length := by
    have hcount := congrArg (List.map List.length) hevents
    simpa only [events, letters, List.map_map, Function.comp_def, List.length_map] using hcount
  exact ⟨fun h => List.eq_iff_flatten_eq.mpr ⟨h, hlengths⟩, fun h => congrArg List.flatten h⟩

/-- Nothing is written between two inboxes. -/
theorem letterBytes_eq_iff {s t : Snapshot} (hs : s.FitsWords) (ht : t.FitsWords) :
    (s.inboxes.flatMap fun inbox => inbox.flatMap envelopeBytes) =
        (t.inboxes.flatMap fun inbox => inbox.flatMap envelopeBytes) ↔
      s.letters.flatten = t.letters.flatten := by
  have hflat (state : Snapshot) : (state.inboxes.flatMap fun inbox => inbox.flatMap envelopeBytes) =
      state.inboxes.flatten.flatMap envelopeBytes := by
    rw [← List.flatMap_id, List.flatMap_assoc]
    rfl
  have hfits {state : Snapshot} (h : state.FitsWords) :
      ∀ envelope ∈ state.inboxes.flatten, envelope.sender.index < Nat.pow 2 64 := by
    intro envelope henvelope
    obtain ⟨inbox, hinbox, hmem⟩ := List.mem_flatten.mp henvelope
    exact h.senders inbox hinbox envelope hmem
  have hpos (envelope : Envelope) : envelopeBytes envelope ≠ [] :=
    List.append_ne_nil_of_left_ne_nil (Fingerprint.ofNat_ne_nil _) _
  rw [hflat, hflat, tells_envelopeBytes.flatMap hpos (hfits hs) (hfits ht), List.map_flatten,
    List.map_flatten]
  rfl

/-! ### Levels -/

variable {s t : Snapshot}

/-- The hash takes no two of the byte strings of two states to one word. -/
def HasNoCollision (s t : Snapshot) : Prop :=
  Set.InjOn Fingerprint.digest {bytes | bytes ∈ s.hashedBytes ++ t.hashedBytes}

/-- Without a collision the digests of two states are equal when their bytes are. -/
theorem HasNoCollision.digest_eq_iff (h : HasNoCollision s t) {f : Snapshot → Bytes}
    (hf : ∀ state : Snapshot, f state ∈ state.hashedBytes) :
    Fingerprint.digest (f s) = Fingerprint.digest (f t) ↔ f s = f t :=
  h.eq_iff (List.mem_append_left _ (hf s)) (List.mem_append_right _ (hf t))

/-- The bytes of the digest of a part tell the part. -/
theorem HasNoCollision.ofWord_digest_append_iff (h : HasNoCollision s t) {f : Snapshot → Bytes}
    (hf : ∀ state : Snapshot, f state ∈ state.hashedBytes) (rest rest' : Bytes) :
    Fingerprint.ofWord (Fingerprint.digest (f s)) ++ rest =
        Fingerprint.ofWord (Fingerprint.digest (f t)) ++ rest' ↔ f s = f t ∧ rest = rest' := by
  rw [Fingerprint.tells_ofWord trivial trivial, id, id, h.digest_eq_iff hf]

/-- The bytes of the tasks are hashed. -/
theorem taskBytes_mem (state : Snapshot) : state.taskBytes ∈ state.hashedBytes := by
  simp [hashedBytes]

/-- The bytes of the inboxes are hashed. -/
theorem inboxBytes_mem (state : Snapshot) : state.inboxBytes ∈ state.hashedBytes := by
  simp [hashedBytes]

/-- The bytes of the holders are hashed. -/
theorem holderBytes_mem (state : Snapshot) : state.holderBytes ∈ state.hashedBytes := by
  simp [hashedBytes]

/-- The fingerprints of a level are equal exactly if the bytes are. -/
theorem HasNoCollision.atLevel_eq_iff (h : HasNoCollision s t) (level : AbstractionLevel) :
    s.hashes.atLevel level = t.hashes.atLevel level ↔ s.bytesAt level = t.bytesAt level := by
  have hmem (state : Snapshot) : state.bytesAt level ∈ state.hashedBytes := by
    cases level <;> simp [bytesAt, hashedBytes]
  rw [hashes, hashes, StateHashes.atLevel_ofLevels, StateHashes.atLevel_ofLevels]
  exact h.digest_eq_iff hmem

/-- Two states have the same fingerprint at a level exactly if they agree in what the level compares. -/
theorem hashes_eq_iff (hs : s.FitsWords) (ht : t.FitsWords) (h : HasNoCollision s t) :
    (s.hashes.default = t.hashes.default ↔ s.tasks = t.tasks) ∧
      (s.hashes.inboxOnly = t.hashes.inboxOnly ↔ s.events = t.events) ∧
      (s.hashes.custom = t.hashes.custom ↔ s.tasks = t.tasks ∧ s.holders = t.holders) ∧
      (s.hashes.full = t.hashes.full ↔
        s.tasks = t.tasks ∧ s.events = t.events ∧ s.holders = t.holders ∧ s.letters = t.letters) := by
  have hcustom : s.customBytes = t.customBytes ↔ s.tasks = t.tasks ∧ s.holders = t.holders := by
    have hholders := h.ofWord_digest_append_iff holderBytes_mem [] []
    rw [List.append_nil, List.append_nil, holderBytes_eq_iff hs ht] at hholders
    rw [customBytes, customBytes, h.ofWord_digest_append_iff taskBytes_mem, taskBytes_eq_iff hs ht,
      hholders, and_iff_left rfl]
  have hfull : s.fullBytes = t.fullBytes ↔
      s.tasks = t.tasks ∧ s.events = t.events ∧ s.holders = t.holders ∧ s.letters = t.letters := by
    simp only [fullBytes, List.append_assoc]
    rw [h.ofWord_digest_append_iff taskBytes_mem, h.ofWord_digest_append_iff inboxBytes_mem,
      h.ofWord_digest_append_iff holderBytes_mem, taskBytes_eq_iff hs ht, inboxBytes_eq_iff hs ht,
      holderBytes_eq_iff hs ht]
    exact and_congr_right fun _ => and_congr_right fun hevents => and_congr_right fun _ =>
      (letterBytes_eq_iff hs ht).trans (flatten_letters_eq_iff hevents)
  exact ⟨(h.atLevel_eq_iff .default).trans (taskBytes_eq_iff hs ht),
    (h.atLevel_eq_iff .inboxOnly).trans (inboxBytes_eq_iff hs ht),
    (h.atLevel_eq_iff .custom).trans hcustom, (h.atLevel_eq_iff .full).trans hfull⟩

/-- Two operations, one of which holds a resource, and their inboxes. -/
def ofInboxes (first second : Inbox) : Snapshot where
  operations := [(Operation.new ⟨0⟩ "main").create, Operation.new ⟨1⟩ "worker"]
  inboxes := [first, second]
  holders := [none, some ⟨0⟩]

/-- A message in another inbox is seen at the levels that compare inboxes, and at these alone. -/
theorem hashes_eq_iff_of_message_moved :
    let envelope : Envelope := ⟨⟨⟨3⟩, .string "ping"⟩, ⟨1⟩, 4⟩
    let s := ofInboxes [envelope] []
    let t := ofInboxes [] [envelope]
    (s.FitsWords ∧ t.FitsWords ∧ HasNoCollision s t) ∧
      s.hashes.default = t.hashes.default ∧ s.hashes.inboxOnly ≠ t.hashes.inboxOnly ∧
      s.hashes.custom = t.hashes.custom ∧ s.hashes.full ≠ t.hashes.full := by
  intro envelope s t
  have hs : s.FitsWords := ⟨by decide, by decide, by decide, by decide, by decide⟩
  have ht : t.FitsWords := ⟨by decide, by decide, by decide, by decide, by decide⟩
  have h : HasNoCollision s t := by
    have hlist : ∀ x ∈ s.hashedBytes ++ t.hashedBytes, ∀ y ∈ s.hashedBytes ++ t.hashedBytes,
        Fingerprint.digest x = Fingerprint.digest y → x = y := by
      decide +kernel
    exact fun x hx y hy => hlist x hx y hy
  have htasks : s.tasks = t.tasks := rfl
  have hevents : s.events ≠ t.events := by decide
  obtain ⟨hdefault, hinboxOnly, hcustom, hfull⟩ := hashes_eq_iff hs ht h
  exact ⟨⟨hs, ht, h⟩, hdefault.mpr htasks, fun heq => hevents (hinboxOnly.mp heq),
    hcustom.mpr ⟨htasks, rfl⟩, fun heq => hevents (hfull.mp heq).2.1⟩

end Snapshot

end ScheduleExplorer
