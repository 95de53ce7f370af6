import ScheduleExplorer.State.Coverage
import ScheduleExplorer.Strategy.Action
import ScheduleExplorer.Strategy.RandomWalk
import Std.Data.TreeMap.Basic

/-!
# Preferring what is new

A random strategy that prefers actions never taken from the current state in an earlier iteration.
Where every action has been taken, it chooses among those whose successor state has the fewest
visits.
-/

namespace ScheduleExplorer

variable {γ : Type} [RandomSource γ]

/-- A strategy that prefers new states. -/
structure NoveltyWalk (γ : Type) where
  walk : RandomWalk γ
  level : AbstractionLevel
  /-- The state that the last occurrence of an action in a state led to. -/
  successors : Std.TreeMap UInt64 (Std.TreeMap UInt64 UInt64) := ∅
  /-- The states and actions of the iteration, last first. -/
  path : List (UInt64 × UInt64) := []
  visits : VisitCounts := {}

namespace NoveltyWalk

/-- The strategy before its first iteration. -/
def ofSource (source : γ) (maxSteps : Nat) (level : AbstractionLevel) : NoveltyWalk γ :=
  { walk := .ofSource source maxSteps, level }

/-- The number of different states visited. -/
def uniqueStates (s : NoveltyWalk γ) : Nat :=
  s.visits.uniqueStates

/-- The state that an action led to in an earlier iteration. -/
def successor? (state action : UInt64) (s : NoveltyWalk γ) : Option UInt64 :=
  s.successors[state]?.bind (·[action]?)

/-- The positions of the actions never taken from a state. -/
def fresh (state : UInt64) (actions : List UInt64) (s : NoveltyWalk γ) : List Nat :=
  (actions.zipIdx.filter fun (action, _) => (s.successor? state action).isNone).map (·.2)

/-- The number of visits to the successor of an action. -/
def successorVisits (state action : UInt64) (s : NoveltyWalk γ) : Nat :=
  match s.successor? state action with
  | some next => s.visits.frequency next
  | none => 0

/-- The positions of the actions whose successor has the fewest visits. -/
def leastVisited (state : UInt64) (actions : List UInt64) (s : NoveltyWalk γ) : List Nat :=
  let visits := actions.map fun action => s.successorVisits state action
  let least := (visits.min?).getD 0
  (visits.zipIdx.filter fun (n, _) => n = least).map (·.2)

/-- The positions among which the next action is drawn. -/
def candidates (state : UInt64) (actions : List UInt64) (s : NoveltyWalk γ) : List Nat :=
  match s.fresh state actions with
  | [] => s.leastVisited state actions
  | positions => positions

/-- Answers a query. -/
def answer (current : Operation) (query : Query) (s : NoveltyWalk γ) :
    Option query.Answer × NoveltyWalk γ :=
  let actions := Action.ofQuery query
  if actions.isEmpty then (none, s)
  else
    let state := current.hashes.atLevel s.level
    let s := { s with visits := s.visits.record state }
    let positions := s.candidates state actions
    let (draw, walk) := s.walk.draw positions.length
    let index := positions[draw]?.getD 0
    (Action.answerAt index query,
      { s with
        path := (state, actions[index]?.getD 0) :: s.path
        walk := walk.step })

/-- Enters where an action led to. -/
def learnStep (state action next : UInt64) (s : NoveltyWalk γ) : NoveltyWalk γ :=
  let known := s.successors.getD state ∅
  { s with successors := s.successors.insert state (known.insert action next) }

/-- Enters where each action of a path led to, the path being in order. -/
def learnPath : List (UInt64 × UInt64) → NoveltyWalk γ → NoveltyWalk γ
  | (state, action) :: (next, nextAction) :: rest, s =>
    learnPath ((next, nextAction) :: rest) (s.learnStep state action next)
  | _, s => s

/-- Learns from the iteration and begins the next one. -/
def prepare (s : NoveltyWalk γ) : NoveltyWalk γ :=
  let s := learnPath s.path.reverse s
  { s with path := [], walk := s.walk.prepare }

/-- Forgets the iteration. -/
def reset (s : NoveltyWalk γ) : NoveltyWalk γ :=
  { s with path := [], walk := s.walk.reset }

/-- The description of the strategy. -/
def description (s : NoveltyWalk γ) : String :=
  s!"GreedyRandom[seed '{s.walk.baseSeed}']"

end NoveltyWalk

end ScheduleExplorer
