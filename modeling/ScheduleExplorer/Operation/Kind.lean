/-!
# What an operation is about to do

The kind and the target of an operation's next step, and the status of the operation. The order of
the constructors is part of the state encoding: a constructor is encoded as its position.
-/

namespace ScheduleExplorer

/-- The kind of an operation's next step. -/
inductive StepKind where
  | start
  | create
  | default
  | send
  | receive
  | yield
  | acquire
  | release
  | join
  | stop
deriving DecidableEq, Inhabited

namespace StepKind

/-- Every kind, in order. -/
def all : List StepKind :=
  [start, create, default, send, receive, yield, acquire, release, join, stop]

/-- A visible step can be observed by other operations. -/
def isVisible : StepKind → Bool
  | yield | default => false
  | _ => true

/-- The name of a kind. -/
def name : StepKind → String
  | start => "Start"
  | create => "Create"
  | default => "Default"
  | send => "Send"
  | receive => "Receive"
  | yield => "Yield"
  | acquire => "Acquire"
  | release => "Release"
  | join => "Join"
  | stop => "Stop"

/-- The position of a kind. -/
def position (kind : StepKind) : Nat :=
  kind.ctorIdx

end StepKind

/-- The sort of object that a step acts on. -/
inductive TargetSort where
  | task
  | inbox
  | resource
deriving DecidableEq, Inhabited

namespace TargetSort

/-- Every sort, in order. -/
def all : List TargetSort :=
  [task, inbox, resource]

/-- The name of a sort. -/
def name : TargetSort → String
  | task => "Task"
  | inbox => "Inbox"
  | resource => "Resource"

/-- The position of a sort. -/
def position (target : TargetSort) : Nat :=
  target.ctorIdx

end TargetSort

/-- Whether an operation can run, and what it waits for if it cannot. -/
inductive Status where
  | none
  | enabled
  | blockedOnWaitAll
  | blockedOnWaitAny
  | blockedOnReceive
  | blockedOnResource
  | completed
deriving DecidableEq, Inhabited

namespace Status

/-- Every status, in order. -/
def all : List Status :=
  [none, enabled, blockedOnWaitAll, blockedOnWaitAny, blockedOnReceive, blockedOnResource,
    completed]

/-- Only an enabled operation may be scheduled. -/
def isEnabled : Status → Bool
  | enabled => true
  | _ => false

/-- A blocked operation waits for a step of another one. -/
def isBlocked : Status → Bool
  | blockedOnWaitAll | blockedOnWaitAny | blockedOnReceive | blockedOnResource => true
  | _ => false

/-- A completed operation takes no further step. -/
def isCompleted : Status → Bool
  | completed => true
  | _ => false

/-- Only the status of an operation that can run is enabled. -/
theorem isEnabled_iff {status : Status} : status.isEnabled = true ↔ status = .enabled := by
  cases status <;> simp [isEnabled]

/-- Only the status of an operation that has ended is completed. -/
theorem isCompleted_iff {status : Status} :
    status.isCompleted = true ↔ status = .completed := by
  cases status <;> simp [isCompleted]

/-- A blocked operation has not completed. -/
theorem isCompleted_of_isBlocked {status : Status} (h : status.isBlocked = true) :
    status.isCompleted = false := by
  cases status <;> simp_all [isBlocked, isCompleted]

/-- The name of a status. -/
def name : Status → String
  | none => "NONE"
  | enabled => "ENABLED"
  | blockedOnWaitAll => "BLOCKED_ON_WAIT_ALL"
  | blockedOnWaitAny => "BLOCKED_ON_WAIT_ANY"
  | blockedOnReceive => "BLOCKED_ON_RECEIVE"
  | blockedOnResource => "BLOCKED_ON_RESOURCE"
  | completed => "COMPLETED"

/-- The position of a status. -/
def position (status : Status) : Nat :=
  status.ctorIdx

end Status

end ScheduleExplorer
