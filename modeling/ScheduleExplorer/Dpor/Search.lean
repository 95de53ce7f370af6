import ScheduleExplorer.Dpor.Race
import ScheduleExplorer.Strategy.RandomWalk

/-!
# Dynamic partial-order reduction

A depth-first search over schedules that tries only those alternatives that a race of an explored
path calls for. The path is a list of frames; those before the cursor are held last first, those
from the cursor on are replayed by the next iteration.

At the end of an iteration the races of its path put operations into the backtrack sets of earlier
frames, and the deepest frame with an untried value or operation moves on. In random mode the search
instead reverses one random race of the path, and starts a fresh path after a number of reversals.
-/

namespace ScheduleExplorer

variable {γ : Type} [RandomSource γ]

/-- What a search has counted. -/
structure DporStats where
  iterations : Nat := 0
  races : Nat := 0
  backtracks : Nat := 0
  sleepBlocked : Nat := 0
  maxDepth : Nat := 0
deriving DecidableEq, Inhabited

/-- The state of the random mode. -/
structure ReversalMode (γ : Type) where
  source : γ
  baseSeed : UInt64
  iterations : Nat := 0
  /-- The reversals since the last fresh path. -/
  reversals : Nat := 0
  limit : Nat

/-- A partial-order search; random if it has a random mode. -/
structure Dpor (γ : Type) where
  /-- The frames that the iteration has passed, last first. -/
  path : List Frame := []
  /-- The frames that the iteration is to replay, in order. -/
  ahead : List Frame := []
  /-- The values chosen before the first scheduling decision. -/
  initial : Odometer := {}
  steps : Nat := 0
  maxSteps : Nat
  random : Option (ReversalMode γ) := none
  stats : DporStats := {}

namespace Dpor

/-- A search in random mode. -/
def ofSource (source : γ) (maxSteps limit : Nat) : Dpor γ :=
  { maxSteps, random := some { source, baseSeed := RandomSource.seed source, limit } }

/-- The frames of the search, in order. -/
def frames (s : Dpor γ) : List Frame :=
  s.path.reverse ++ s.ahead

/-- The number of frames. -/
def depth (s : Dpor γ) : Nat :=
  s.path.length + s.ahead.length

/-- Whether the search is in random mode. -/
def isRandom (s : Dpor γ) : Bool :=
  s.random.isSome

/-- Enters into the last frame passed which send its operation has received from since. -/
def recordMatchingSend (ops : List Operation) (s : Dpor γ) : Dpor γ :=
  match s.path with
  | [] => s
  | frame :: earlier =>
    let send := do
      let selected ← frame.selected
      let op ← ops.find? fun op => op.id = selected
      op.matchingSend
    match send with
    | some step => { s with path := { frame with matchingSend := some step } :: earlier }
    | none => s

/-- Picks a candidate: a random one in random mode, else the first one from the running operation
on. -/
def pick (current : OperationId) (candidates : OpSet) (s : Dpor γ) :
    Option OperationId × Dpor γ :=
  let ids := candidates.toList
  match s.random with
  | some mode =>
    if ids.isEmpty then (none, s)
    else
      let (index, source) := RandomSource.nextBounded ids.length mode.source
      (ids[index]?, { s with random := some { mode with source } })
  | none => ((ids.find? fun id => current.index ≤ id.index).orElse fun _ => ids.head?, s)

/-- Adds a frame for a table of operations and selects an operation in it. If every enabled
operation sleeps, all of them are candidates. -/
def pushFrame (current : Operation) (ops : List Operation) (s : Dpor γ) :
    Option OperationId × Dpor γ :=
  let frame := { Frame.capture ops with
    sleep := (s.path.head?.map Frame.inheritedSleep).getD {} }
  let awake := frame.awake
  let blocked := awake.isEmpty
  let s :=
    if blocked then { s with stats := { s.stats with sleepBlocked := s.stats.sleepBlocked + 1 } }
    else s
  match s.pick current.id (if blocked then frame.enabled else awake) with
  | (none, s) => (none, s)
  | (some choice, s) =>
    let frame := { frame with
      backtrack := frame.backtrack.insert choice
      selected := some choice
      matchingSend := (ops.find? fun op => op.id = choice).bind (·.matchingSend) }
    let path := frame :: s.path
    (some choice,
      { s with path, stats := { s.stats with maxDepth := max s.stats.maxDepth path.length } })

/-- A fresh value below a bound: drawn in random mode, and the first one otherwise. -/
def freshValue (options : Nat) : Option (ReversalMode γ) → Nat × Option (ReversalMode γ)
  | some mode =>
    let (n, source) := RandomSource.nextBounded options mode.source
    (n, some { mode with source })
  | none => (0, none)

/-- Takes a value among a number of options, in the last frame passed. -/
def chooseValue (options : Nat) (s : Dpor γ) : Nat × Dpor γ :=
  match s.path with
  | frame :: earlier =>
    let (index, choices, random) := frame.choices.draw options freshValue s.random
    (index, { s with path := { frame with choices } :: earlier, random })
  | [] =>
    let (index, initial, random) := s.initial.draw options freshValue s.random
    (index, { s with initial, random })

/-- The operation that the next frame to be replayed selects, if it is enabled. -/
def replayed? (ops : List Operation) (s : Dpor γ) : Option (OperationId × Frame × List Frame) :=
  match s.ahead with
  | frame :: rest =>
    match frame.selected with
    | some id => if Operation.isEnabledIn ops id then some (id, frame, rest) else none
    | none => none
  | [] => none

/-- Counts a step. -/
def step (s : Dpor γ) : Dpor γ :=
  { s with steps := s.steps + 1 }

/-- Answers a query. -/
def answer (current : Operation) (query : Query) (s : Dpor γ) : Option query.Answer × Dpor γ :=
  match query with
  | .operation ops =>
    if !Operation.anyEnabled ops then (none, s)
    else
      let s := s.recordMatchingSend ops
      match s.replayed? ops with
      | some (id, frame, rest) => (some id, { s with path := frame :: s.path, ahead := rest }.step)
      | none =>
        match pushFrame current ops { s with ahead := [] } with
        | (some id, s) => (some id, s.step)
        | (none, s) => (none, s)
  | .boolean _ =>
    let (index, s) := s.step.chooseValue 2
    (some (index == 0), s)
  | .integer bound =>
    let (index, s) := s.step.chooseValue (max bound 1)
    (some index, s)

/-- Puts the operation of a race into the backtrack set of a frame, or every enabled operation if
that one is not enabled there. -/
def addBacktrack (op : OperationId) (frame : Frame) : Frame :=
  if frame.enabled.contains op then { frame with backtrack := frame.backtrack.insert op }
  else { frame with backtrack := frame.backtrack.union frame.enabled }

/-- Enters the races of a path into its frames, which are in order. -/
def addRaces (races : List Race) (frames : List Frame) : List Frame :=
  races.foldl (fun frames race => frames.modify race.frame (addBacktrack race.op)) frames

/-- Moves the deepest frame with an untried value or operation on, in frames held last first;
exhausted frames are dropped. The flag says whether an operation was selected. -/
def rewindFrames : List Frame → Bool × List Frame
  | [] => (false, [])
  | frame :: earlier =>
    let choices := frame.choices.advance
    if !choices.isEmpty then (false, { frame with choices } :: earlier)
    else
      let done := match frame.selected with
        | some id => frame.done.insert id
        | none => frame.done
      let frame := { frame with choices, done }
      match frame.unexplored.first? with
      | some id => (true, frame.select id :: earlier)
      | none => rewindFrames earlier

/-- The search after a path has been analysed: every frame is ahead again. -/
def restart (frames : List Frame) (s : Dpor γ) : Dpor γ :=
  { s with
    path := []
    ahead := frames.map fun frame => { frame with choices := frame.choices.rewind }
    initial := s.initial.rewind
    steps := 0 }

/-- Moves the exhaustive search on; false when nothing is left to try. -/
def prepareExhaustive (races : List Race) (s : Dpor γ) : Bool × Dpor γ :=
  let (selected, frames) := rewindFrames (addRaces races s.frames).reverse
  if frames.isEmpty then
    let initial := s.initial.advance
    (!initial.isEmpty, { s with initial }.restart [])
  else
    let stats := { s.stats with
      backtracks := if selected then s.stats.backtracks + 1 else s.stats.backtracks }
    (true, { s with stats }.restart frames.reverse)

/-- The operation that reverses a race in its frame: the later one if it is enabled there, else a
random enabled one that was not selected. -/
def reversal? (race : Race) (frame : Frame) (mode : ReversalMode γ) :
    Option OperationId × ReversalMode γ :=
  if frame.enabled.contains race.op then (some race.op, mode)
  else
    let others := frame.enabled.toList.filter fun id => frame.selected ≠ some id
    if others.isEmpty then (none, mode)
    else
      let (index, source) := RandomSource.nextBounded others.length mode.source
      (others[index]?, { mode with source })

/-- Moves the random search on: reverses a random race of the path, or starts afresh. -/
def prepareRandom (races : List Race) (mode : ReversalMode γ) (s : Dpor γ) : Dpor γ :=
  let mode := { mode with
    iterations := mode.iterations + 1
    source := RandomSource.reseed (deriveSeed mode.baseSeed (UInt64.ofNat (mode.iterations + 1)))
      mode.source }
  if races.isEmpty || mode.limit ≤ mode.reversals then
    { s with initial := {}, random := some { mode with reversals := 0 } }.restart []
  else
    let (index, source) := RandomSource.nextBounded races.length mode.source
    let mode := { mode with source }
    let race := races[index]?.getD default
    let kept := s.frames.take (race.frame + 1)
    let (frames, mode) := match kept.getLast? with
      | some top =>
        match reversal? race top mode with
        | (some op, mode) => (kept.dropLast ++ [top.select op], mode)
        | (none, mode) => (kept, mode)
      | none => (kept, mode)
    { s with
      random := some { mode with reversals := mode.reversals + 1 }
      stats := { s.stats with backtracks := s.stats.backtracks + 1 } }.restart frames

/-- Analyses the path of an iteration and moves on; false when nothing is left to try. -/
def prepare (s : Dpor γ) : Bool × Dpor γ :=
  let s := { s with ahead := [] }
  let races := Race.ofPath s.frames
  let stats := { s.stats with
    iterations := s.stats.iterations + 1
    races := s.stats.races + races.length }
  let s := { s with stats }
  match s.random with
  | some mode => (true, s.prepareRandom races mode)
  | none => s.prepareExhaustive races

/-- Forgets every path; what was counted, and the state of the random mode, stay. -/
def reset (s : Dpor γ) : Dpor γ :=
  { s with path := [], ahead := [], initial := {}, steps := 0 }

/-- The description of the search. -/
def description (s : Dpor γ) : String :=
  if s.isRandom then "rDPOR" else "DPOR"

end Dpor

end ScheduleExplorer
