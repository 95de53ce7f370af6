import ScheduleExplorer.Message
import ScheduleExplorer.State.Level

/-!
# Programs under test

A program is a set of bodies that run one at a time over a common memory. A body is given as a
transition function: from its local state, the reply to its last call and the memory it computes
its next action. So a program is deterministic given the replies, and every interleaving of its
bodies is a sequence of calls and replies.
-/

namespace ScheduleExplorer

/-- A controlled primitive with its arguments; `σ` is the type of local states of bodies. -/
inductive Request (σ : Type) where
  | yield
  /-- A new operation runs the given body. -/
  | spawn (name : String) (body : σ)
  | join (targets : List OperationId)
  | joinAny (targets : List OperationId)
  | send (target : OperationId) (message : Message)
  | receive (events : List EventType)
  | createResource
  | acquire (resource : ResourceId)
  | release (resource : ResourceId)
  | boolean
  | integer (max : Nat)
  | assert (condition : Bool) (message : String)
  | setMonitor (monitor : MonitorId) (isHot : Bool)
  /-- A thread other than the owner's calls a primitive in the name of the owner. -/
  | foreignCall (thread : Option String) (owner : OperationId)

/-- What a primitive that succeeds returns. -/
inductive Reply where
  | done
  | operation (id : OperationId)
  | message (message : Message)
  | resource (id : ResourceId)
  | boolean (value : Bool)
  | integer (value : Nat)

/-- What a body does next. -/
inductive Action (σ : Type) where
  /-- Goes on without a call. -/
  | work (next : σ)
  /-- Calls a primitive and waits for its reply in the given state. -/
  | call (request : Request σ) (next : σ)
  | finish
  | raise (message : String)
  /-- Returns a cancellation, although no primitive was refused. -/
  | giveUp

/-- A program with local states in `σ` and a memory in `μ`. -/
structure Program (σ μ : Type) where
  /-- The body of the first operation. -/
  main : σ
  memory : μ
  /-- The next action of a body, and the memory after it. The first reply to a body is
  `Reply.done`. -/
  resume : OperationId → σ → Reply → μ → Action σ × μ
  /-- How the program describes its own state; without it the visible state is described. -/
  hasher : Option (μ → StateHashes) := none

end ScheduleExplorer
