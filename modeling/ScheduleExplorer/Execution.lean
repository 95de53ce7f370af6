import ScheduleExplorer.Iteration
import ScheduleExplorer.Program
import ScheduleExplorer.State.Snapshot

/-!
# Executions

An execution runs a program under an iteration. All bodies are parked but one: the running
operation of the iteration. It runs to its next scheduling point, announces there what it is about
to do, and is parked until the iteration gives it the turn again; then the primitive takes effect
and the body gets its reply.

A primitive that waits (a join, a receive or an acquire) examines its condition only when it has
the turn, and blocks its operation while the condition does not hold.

`Execution.step` is one step of this machine. It is `none` when the iteration has ended, when no
operation is left, and when the body whose turn it is has given up.
-/

namespace ScheduleExplorer

/-- The primitive at which a body is parked, with what it does when its turn comes. -/
inductive Primitive (σ : Type) where
  /-- The body has not begun. -/
  | start
  /-- A primitive that has nothing left to do. -/
  | resume
  | spawn (child : OperationId) (body : σ)
  | join (targets : List OperationId) (all : Bool)
  | send (target : OperationId) (message : Message)
  | receive (events : List EventType)
  | acquire (resource : ResourceId)
  | release (resource : ResourceId)

/-- Where the body of an operation stands. -/
inductive Stage (σ : Type) where
  /-- The operation is registered, and the spawn that registered it is still parked. -/
  | announced
  | parked (primitive : Primitive σ) (next : σ)
  /-- The body runs, having got a reply. -/
  | running (state : σ) (reply : Reply)
  | ended

/-- Whether a body has begun to exist and has not ended. -/
def Stage.isLive {σ : Type} : Stage σ → Bool
  | parked .. | running .. => true
  | announced | ended => false

/-- An execution under way. The lists of stages and of inboxes go with the table of operations. -/
structure Execution (γ σ μ : Type) where
  iteration : Iteration γ
  stages : List (Stage σ)
  inboxes : List Inbox
  /-- The holder of each resource. -/
  holders : List (Option OperationId) := []
  memory : μ

namespace Execution

variable {γ σ μ : Type} [RandomSource γ]

/-- The beginning of an execution: the main operation is created and has the turn. -/
def start (program : Program σ μ) (it : Iteration γ) : Execution γ σ μ :=
  let (main, it) := it.register "main"
  { iteration := it.update main Operation.create
    stages := [.parked .start program.main]
    inboxes := [[]]
    memory := program.memory }

/-- What can be seen of the program. -/
def snapshot (ex : Execution γ σ μ) : Snapshot where
  operations := ex.iteration.operations
  inboxes := ex.inboxes
  holders := ex.holders

/-- The description of the state of the program. -/
def hashes (program : Program σ μ) (ex : Execution γ σ μ) : StateHashes :=
  match program.hasher with
  | some describe => describe ex.memory
  | none => ex.snapshot.hashes

/-- Where the body of an operation stands. -/
def stage? (id : OperationId) (ex : Execution γ σ μ) : Option (Stage σ) :=
  ex.stages[id.index]?

/-- Moves the body of an operation on. -/
def setStage (id : OperationId) (stage : Stage σ) (ex : Execution γ σ μ) : Execution γ σ μ :=
  { ex with stages := ex.stages.set id.index stage }

/-- Applies a change of the iteration. -/
def mapIteration (f : Iteration γ → Iteration γ) (ex : Execution γ σ μ) : Execution γ σ μ :=
  { ex with iteration := f ex.iteration }

/-- Changes an operation of the table. -/
def updateOperation (id : OperationId) (f : Operation → Operation) (ex : Execution γ σ μ) :
    Execution γ σ μ :=
  ex.mapIteration (·.update id f)

/-- The holder of a resource. -/
def holder? (resource : ResourceId) (ex : Execution γ σ μ) : Option OperationId :=
  (ex.holders[resource.index]?).join

/-- Gives a resource to a holder, or to nobody. -/
def setHolder (resource : ResourceId) (holder : Option OperationId) (ex : Execution γ σ μ) :
    Execution γ σ μ :=
  { ex with holders := ex.holders.set resource.index holder }

/-- Whether a number belongs to an operation. -/
def isKnownOperation (ex : Execution γ σ μ) (id : OperationId) : Bool :=
  (ex.iteration.operation? id).isSome

/-- Whether a number belongs to a resource. -/
def isKnownResource (ex : Execution γ σ μ) (resource : ResourceId) : Bool :=
  resource.index < ex.holders.length

/-! ### Scheduling points -/

/-- Passes the turn on. -/
def reschedule (ex : Execution γ σ μ) : Execution γ σ μ :=
  match ex.iteration.scheduleNext with
  | (.ok _, it) => { ex with iteration := it }
  | (.error fault, it) => { ex with iteration := it.abort fault }

/-- A scheduling point: the operation is parked at a primitive, its next step and the state of the
program are recorded, and the turn is passed on. The state is the one before the step is
announced. -/
def announce (program : Program σ μ) (id : OperationId) (primitive : Primitive σ) (next : σ)
    (describe : Operation → Operation) (ex : Execution γ σ μ) : Execution γ σ μ :=
  let hashes := ex.hashes program
  ((ex.setStage id (.parked primitive next)).mapIteration fun it =>
    (it.update id describe).recordState hashes).reschedule

/-- The operation waits at its primitive: it is blocked and the turn is passed on. -/
def block (id : OperationId) (describe : Operation → Operation) (ex : Execution γ σ μ) :
    Execution γ σ μ :=
  (ex.updateOperation id describe).reschedule

/-- A primitive succeeds. -/
def reply (id : OperationId) (next : σ) (reply : Reply) (ex : Execution γ σ μ) :
    Execution γ σ μ :=
  ex.setStage id (.running next reply)

/-! ### Primitives whose turn has come -/

/-- Starts the body of a spawned operation. -/
def begin (child : OperationId) (body : σ) (ex : Execution γ σ μ) : Execution γ σ μ :=
  (ex.updateOperation child Operation.create).setStage child (.parked .start body)

/-- Whether a join is over. -/
def isJoined (targets : List OperationId) (all : Bool) (ex : Execution γ σ μ) : Bool :=
  if all then targets.all ex.iteration.isCompleted else targets.any ex.iteration.isCompleted

/-- Puts a message into an inbox and wakes the receiver if it waits for such a message. The step
of a send is the number of the scheduling decision that gave it the turn. -/
def deliver (sender target : OperationId) (message : Message) (ex : Execution γ σ μ) :
    Execution γ σ μ :=
  let sendStep := ex.iteration.operationSteps - 1
  let envelope : Envelope := { message, sender, sendStep }
  let ex := { ex with inboxes := ex.inboxes.modify target.index (· ++ [envelope]) }
  ex.updateOperation target fun op =>
    if op.awaitsEvent message.event then op.receive sendStep else op

/-- Takes a message from the operation's own inbox. -/
def takeMessage? (id : OperationId) (events : List EventType) (ex : Execution γ σ μ) :
    Option (Envelope × Execution γ σ μ) := do
  let inbox ← ex.inboxes[id.index]?
  let (envelope, rest) ← inbox.take? events
  pure (envelope, { ex with inboxes := ex.inboxes.set id.index rest })

/-- Frees a resource and wakes all that wait for it. -/
def free (resource : ResourceId) (ex : Execution γ σ μ) : Execution γ σ μ :=
  (ex.setHolder resource none).mapIteration fun it =>
    { it with operations := it.operations.map (Operation.wakeOnRelease resource) }

/-- Carries out the primitive at which an operation is parked, when its turn has come. -/
def grant (id : OperationId) (next : σ) (ex : Execution γ σ μ) : Primitive σ → Execution γ σ μ
  | .start => ex.reply id next .done
  | .resume => ex.reply id next .done
  | .spawn child body => (ex.begin child body).reply id next (.operation child)
  | .join targets all =>
    if ex.isJoined targets all then ex.reply id next .done
    else (ex.setStage id (.parked .resume next)).block id (Operation.waitTasks targets all)
  | .send target message => (ex.deliver id target message).reply id next .done
  | .receive events =>
    match ex.takeMessage? id events with
    | some (envelope, ex) =>
      (ex.updateOperation id (Operation.receive envelope.sendStep)).reply id next
        (.message envelope.message)
    | none => ex.block id (Operation.waitEvents events)
  | .acquire resource =>
    match ex.holder? resource with
    | none => (ex.setHolder resource (some id)).reply id next .done
    | some holder =>
      if holder = id then
        ex.mapIteration (·.reportBug .assertion s!"{id} acquired {resource} twice")
      else ex.block id (Operation.waitResource resource)
  | .release resource =>
    if ex.holder? resource = some id then (ex.free resource).reply id next .done
    else
      ex.mapIteration (·.reportBug .assertion s!"{id} released {resource} without holding it")

/-! ### Calls of a running body -/

/-- Gives the iteration up. -/
def abort (fault : Fault) (ex : Execution γ σ μ) : Execution γ σ μ :=
  ex.mapIteration (·.abort fault)

/-- A controlled choice, which takes effect without a scheduling point. -/
def choose (id : OperationId) (next : σ) (query : Query) (wrap : query.Answer → Reply)
    (ex : Execution γ σ μ) : Execution γ σ μ :=
  match ex.iteration.choose query with
  | (.ok (some value), it) => { ex with iteration := it }.reply id next (wrap value)
  | (.ok none, it) => { ex with iteration := it }
  | (.error fault, it) => { ex with iteration := it.abort fault }

/-- A join announces itself unless it refers to nothing. -/
def beginJoin (program : Program σ μ) (id : OperationId) (next : σ) (targets : List OperationId)
    (all : Bool) (ex : Execution γ σ μ) : Execution γ σ μ :=
  match targets.find? fun target => !ex.isKnownOperation target with
  | some target => ex.abort (.unknownOperation target)
  | none => ex.announce program id (.join targets all) next (Operation.announceJoin targets)

/-- A step on a resource announces itself unless it refers to nothing. -/
def beginOnResource (program : Program σ μ) (id : OperationId) (next : σ)
    (resource : ResourceId) (kind : StepKind) (primitive : Primitive σ) (ex : Execution γ σ μ) :
    Execution γ σ μ :=
  if ex.isKnownResource resource then
    ex.announce program id primitive next (Operation.announce kind .resource resource.index)
  else ex.abort (.execution s!"unknown {resource}")

/-- The running body of an operation calls a primitive. -/
def call (program : Program σ μ) (id : OperationId) (next : σ) (ex : Execution γ σ μ) :
    Request σ → Execution γ σ μ
  | .yield => ex.announce program id .resume next (Operation.announce .yield .task id.index)
  | .spawn name body =>
    let (child, it) := ex.iteration.register name
    let ex := { ex with
      iteration := it
      stages := ex.stages ++ [Stage.announced]
      inboxes := ex.inboxes ++ [[]] }
    ex.announce program id (.spawn child body) next
      (Operation.announce .create .task child.index)
  | .join targets => ex.beginJoin program id next targets true
  | .joinAny targets =>
    if targets.isEmpty then ex.reply id next .done
    else ex.beginJoin program id next targets false
  | .send target message =>
    if ex.isKnownOperation target then
      ex.announce program id (.send target message) next
        (Operation.announce .send .inbox target.index)
    else ex.abort (.unknownOperation target)
  | .receive events =>
    ex.announce program id (.receive events) next (Operation.announce .receive .inbox id.index)
  | .createResource =>
    { ex with holders := ex.holders ++ [none] }.reply id next
      (.resource ⟨ex.holders.length⟩)
  | .acquire resource =>
    ex.beginOnResource program id next resource .acquire (.acquire resource)
  | .release resource =>
    ex.beginOnResource program id next resource .release (.release resource)
  | .boolean => ex.choose id next (.boolean 2) .boolean
  | .integer max => ex.choose id next (.integer max) .integer
  | .assert condition message =>
    if condition then ex.reply id next .done
    else ex.mapIteration (·.reportBug .assertion message)
  | .setMonitor monitor isHot =>
    if ex.iteration.monitors.isKnown monitor then
      (ex.mapIteration fun it => { it with monitors := it.monitors.set monitor isHot }).reply
        id next .done
    else ex.abort (.execution s!"unknown {monitor}")
  | .foreignCall thread owner =>
    let name := thread.getD "<unnamed>"
    ex.mapIteration (·.reportBug .assertion
      s!"uncontrolled thread '{name}' invoked a controlled primitive of {owner}")

/-- The running body of an operation takes its next action. -/
def act (program : Program σ μ) (id : OperationId) (ex : Execution γ σ μ) :
    Action σ → Execution γ σ μ
  | .work next => ex.reply id next .done
  | .call request next => ex.call program id next request
  | .finish => ((ex.setStage id .ended).updateOperation id Operation.complete).reschedule
  | .raise message =>
    (ex.setStage id .ended).mapIteration (·.reportBug .panic s!"{id} panicked: {message}")
  | .giveUp => ex.setStage id .ended

/-! ### Running -/

/-- Whether the operation may go on once it has the turn. -/
def isEnabled (id : OperationId) (ex : Execution γ σ μ) : Bool :=
  (ex.iteration.operation? id).any Operation.isEnabled

/-- One step: the operation whose turn it is carries out its primitive or its next action. -/
def step (program : Program σ μ) (ex : Execution γ σ μ) : Option (Execution γ σ μ) :=
  let id := ex.iteration.current
  if ex.iteration.isRunning then
    match ex.stage? id with
    | some (.parked primitive next) =>
      if ex.isEnabled id then some (ex.grant id next primitive) else none
    | some (.running state reply) =>
      let (action, memory) := program.resume id state reply ex.memory
      some ({ ex with memory }.act program id action)
    | _ => none
  else none

/-- Takes at most `fuel` steps. -/
def run (program : Program σ μ) : Nat → Execution γ σ μ → Execution γ σ μ
  | 0, ex => ex
  | fuel + 1, ex =>
    match ex.step program with
    | some ex => run program fuel ex
    | none => ex

/-- Whether the execution is over: the iteration has ended, or no body is left. -/
def isOver (ex : Execution γ σ μ) : Bool :=
  !ex.iteration.isRunning || !ex.stages.any Stage.isLive

/-- What the execution leaves behind, once it is over. -/
def result? (ex : Execution γ σ μ) : Option (IterationResult γ × μ) :=
  if ex.isOver then some (ex.iteration.finish, ex.memory) else none

end Execution

/-- Runs a program under an iteration, for at most `fuel` steps. There is no result if the fuel
runs out or if a body has given up while others wait for its turn to end. -/
def Program.run {γ σ μ : Type} [RandomSource γ] (program : Program σ μ) (fuel : Nat)
    (it : Iteration γ) : Option (IterationResult γ × μ) :=
  ((Execution.start program it).run program fuel).result?

end ScheduleExplorer
