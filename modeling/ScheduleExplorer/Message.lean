import ScheduleExplorer.Json.Canonical
import ScheduleExplorer.Operation.Id

/-!
# Messages

Operations send each other messages, and every operation has an inbox. A message waits in its
envelope until a receive takes it; a receive takes the oldest envelope that it accepts.
-/

namespace ScheduleExplorer

/-- A typed message with data. -/
structure Message where
  event : EventType
  payload : Json

namespace Message

/-- A message without data. -/
def signal (event : EventType) : Message :=
  { event, payload := .null }

/-- A message as data. -/
def toJson (message : Message) : Json :=
  .object [("event", .natural message.event.code.toNat), ("payload", message.payload)]

/-- Reads a message from data. The payload lies one level deep, so one level fewer is left to
it. -/
def ofJson? (json : Json) : Option Message := do
  let fields ← json.fields?
  let event ← Json.field? fields "event" Json.natural?
  let payload ← Json.field? fields "payload" (Json.canonical? (Json.maxDepth - 1))
  pure { event := ⟨UInt64.ofNat event⟩, payload }

end Message

/-- A message on its way. -/
structure Envelope where
  message : Message
  sender : OperationId
  /-- The scheduling step at which it was sent. -/
  sendStep : Nat

/-- The envelopes that wait for an operation, oldest first. -/
abbrev Inbox := List Envelope

/-- Whether a receive for the given types takes an envelope; no type stands for all. -/
def Envelope.isAccepted (events : List EventType) (envelope : Envelope) : Bool :=
  events.isEmpty || events.contains envelope.message.event

/-- Takes out the oldest envelope that a receive accepts. -/
def Inbox.take? (events : List EventType) : Inbox → Option (Envelope × Inbox)
  | [] => none
  | envelope :: rest =>
    if envelope.isAccepted events then some (envelope, rest)
    else (take? events rest).map fun (taken, rest) => (taken, envelope :: rest)

/-- What is taken is the oldest envelope that is accepted, and the others keep their order. -/
theorem Inbox.eq_append_of_take? {events : List EventType} {inbox rest : Inbox}
    {taken : Envelope} (h : inbox.take? events = some (taken, rest)) :
    ∃ before after, inbox = before ++ taken :: after ∧ rest = before ++ after ∧
      taken.isAccepted events ∧ ∀ envelope ∈ before, ¬ envelope.isAccepted events := by
  induction inbox generalizing rest with
  | nil => simp [take?] at h
  | cons envelope tail ih =>
    by_cases accepted : envelope.isAccepted events
    · simp only [take?, accepted, if_true, Option.some.injEq, Prod.mk.injEq] at h
      obtain ⟨rfl, rfl⟩ := h
      exact ⟨[], tail, rfl, rfl, accepted, by simp⟩
    · rw [take?, if_neg accepted, Option.map_eq_some_iff] at h
      obtain ⟨⟨found, left⟩, hfound, hpair⟩ := h
      obtain ⟨rfl, rfl⟩ := Prod.mk.inj hpair
      obtain ⟨before, after, rfl, rfl, haccepted, hbefore⟩ := ih hfound
      refine ⟨envelope :: before, after, rfl, rfl, haccepted, fun e he => ?_⟩
      rcases List.mem_cons.1 he with rfl | he
      · exact accepted
      · exact hbefore e he

end ScheduleExplorer
