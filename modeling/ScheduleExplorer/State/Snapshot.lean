import ScheduleExplorer.Fingerprint
import ScheduleExplorer.Json.Printer
import ScheduleExplorer.Message
import ScheduleExplorer.Operation

/-!
# Fingerprints of program states

What can be seen of a program between two steps: its operations, their inboxes, and who holds each
resource. Each abstraction level is the digest of an encoding that keeps what the level compares.
-/

namespace ScheduleExplorer

/-- The visible state of a program. -/
structure Snapshot where
  operations : List Operation
  inboxes : List Inbox
  /-- The holder of each resource. -/
  holders : List (Option OperationId)

namespace Snapshot

open Fingerprint (Bytes)

/-- What the levels compare of an operation: its status and its announced step. -/
def operationBytes (op : Operation) : Bytes :=
  Fingerprint.ofNat op.status.position ++ Fingerprint.ofNat op.kind.position ++
    Fingerprint.ofNat op.target.position ++ Fingerprint.ofNat op.targetId

/-- The operations, in the order of their numbers. -/
def taskBytes (state : Snapshot) : Bytes :=
  state.operations.flatMap operationBytes

/-- The types of the messages that wait in each inbox. -/
def inboxBytes (state : Snapshot) : Bytes :=
  state.inboxes.flatMap
    (Fingerprint.ofList fun envelope => Fingerprint.ofWord envelope.message.event.code)

/-- Who holds each resource. -/
def holderBytes (state : Snapshot) : Bytes :=
  Fingerprint.ofList (Fingerprint.ofOption fun id => Fingerprint.ofNat id.index) state.holders

/-- The operations and the resources. -/
def customBytes (state : Snapshot) : Bytes :=
  Fingerprint.ofWord (Fingerprint.digest state.taskBytes) ++
    Fingerprint.ofWord (Fingerprint.digest state.holderBytes)

/-- The sender and the payload of an envelope. -/
def envelopeBytes (envelope : Envelope) : Bytes :=
  Fingerprint.ofNat envelope.sender.index ++
    Fingerprint.ofString envelope.message.payload.render

/-- Everything: the three parts, and the senders and payloads of all messages. -/
def fullBytes (state : Snapshot) : Bytes :=
  Fingerprint.ofWord (Fingerprint.digest state.taskBytes) ++
    Fingerprint.ofWord (Fingerprint.digest state.inboxBytes) ++
    Fingerprint.ofWord (Fingerprint.digest state.holderBytes) ++
    (state.inboxes.flatMap fun inbox => inbox.flatMap envelopeBytes)

/-- The bytes whose digest stands for the state at a level. -/
def bytesAt (state : Snapshot) : AbstractionLevel → Bytes
  | .default => state.taskBytes
  | .inboxOnly => state.inboxBytes
  | .custom => state.customBytes
  | .full => state.fullBytes

/-- The word for the state at every level. -/
def hashes (state : Snapshot) : StateHashes :=
  StateHashes.ofLevels fun level => Fingerprint.digest (state.bytesAt level)

end Snapshot

end ScheduleExplorer
