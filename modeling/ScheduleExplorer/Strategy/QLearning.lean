import ScheduleExplorer.State.Coverage
import ScheduleExplorer.Strategy.Action
import ScheduleExplorer.Strategy.RandomWalk
import Std.Data.TreeMap.Basic

/-!
# Learning to avoid frequent states

Scheduling as reinforcement learning: a state is what the running operation sees, an action is an
answer to a query, and the reward of a step is minus the number of visits to the state it led to.
Actions are drawn from a softmax over their values. A bug is punished once and then everything
learned is forgotten, so that the search can turn to other bugs.
-/

namespace ScheduleExplorer

variable {γ : Type} [RandomSource γ]

/-- The values of the actions of one state. -/
abbrev QValues := Std.TreeMap UInt64 Float

/-- A learning strategy. -/
structure QLearning (γ : Type) where
  walk : RandomWalk γ
  level : AbstractionLevel
  table : Std.TreeMap UInt64 QValues := ∅
  /-- The states of the iteration, last first, each with the action that led to it. -/
  path : List (Option UInt64 × UInt64) := []
  previousAction : Option UInt64 := none
  visits : VisitCounts := {}
  bugFound : Bool := false

namespace QLearning

/-- The weight of new experience. -/
def learningRate : Float := 0.3

/-- The weight of the best value of the next state. -/
def discount : Float := 0.7

/-- The reward of a step into a bug. -/
def bugReward : Float := -1000.0

/-- The reward of a step, per visit to the state it leads to. -/
def visitReward : Float := -1.0

/-- The strategy before its first iteration. -/
def ofSource (source : γ) (maxSteps : Nat) (level : AbstractionLevel) : QLearning γ :=
  { walk := .ofSource source maxSteps, level }

/-- The number of states with values. -/
def knownStates (s : QLearning γ) : Nat :=
  s.table.size

/-- The value of an action in a state. -/
def value? (state action : UInt64) (s : QLearning γ) : Option Float :=
  s.table[state]?.bind (·[action]?)

/-- The larger of two values, the first one if they compare as equal. -/
def larger (a b : Float) : Float :=
  if a < b then b else a

/-- Gives the actions of a state that have no value yet the value zero. -/
def addUnseen (actions : List UInt64) (values : QValues) : QValues :=
  actions.foldl (fun values action => values.insertIfNew action 0.0) values

/-- The position whose share of the weights, added up in order, reaches the draw. -/
def reach (total draw cumulative : Float) (index : Nat) : List Float → Option Nat
  | [] => none
  | weight :: rest =>
    let cumulative := cumulative + weight / total
    if draw ≤ cumulative then some index else reach total draw cumulative (index + 1) rest

/-- The position that a draw in the unit interval selects from a softmax over values. -/
def softmaxIndex (values : List Float) (draw : Float) : Nat :=
  let largest := values.foldl larger (-1.7976931348623157e308)
  let weights := values.map fun v => Float.exp (v - largest)
  let total := weights.foldl (· + ·) 0.0
  (reach total draw 0.0 0 weights).getD (values.length - 1)

/-- Records the state that the running operation sees. -/
def capture (current : Operation) (s : QLearning γ) : UInt64 × QLearning γ :=
  let state := current.hashes.atLevel s.level
  (state,
    { s with
      path := (s.previousAction, state) :: s.path
      visits := s.visits.record state })

/-- Answers a query, with any function of the values of the actions and the draw as the rule that
selects a position. -/
def answerBy (select : List Float → Float → Nat) (current : Operation) (query : Query)
    (s : QLearning γ) : Option query.Answer × QLearning γ :=
  let actions := Action.ofQuery query
  if actions.isEmpty then (none, s)
  else
    let (state, s) := s.capture current
    let values := addUnseen actions (s.table.getD state ∅)
    let (draw, source) := RandomSource.nextDouble s.walk.source
    let index := select (actions.map fun action => values.getD action 0.0) draw
    (Action.answerAt index query,
      { s with
        table := s.table.insert state values
        previousAction := actions[index]?
        walk := { s.walk with source }.step })

/-- Answers a query by the softmax. -/
def answer (current : Operation) (query : Query) (s : QLearning γ) :
    Option query.Answer × QLearning γ :=
  s.answerBy softmaxIndex current query

/-- Tells the strategy that the iteration has found a bug. -/
def notifyBug (s : QLearning γ) : QLearning γ :=
  { s with bugFound := true }

/-- Updates the value of one step: the action that led from one state to the next. The reward of
the last step of an iteration with a bug is that of the bug. -/
def learnStep (isLast : Bool) (state action next : UInt64) (s : QLearning γ) : QLearning γ :=
  let best := match (s.table.getD next ∅).values with
    | [] => 0.0
    | v :: rest => rest.foldl larger v
  let reward :=
    if isLast && s.bugFound then bugReward
    else visitReward * (UInt64.ofNat (s.visits.frequency next)).toFloat
  let values := s.table.getD state ∅
  let old := values.getD action 0.0
  let new := (1.0 - learningRate) * old + learningRate * (reward + discount * best)
  { s with table := s.table.insert state (values.insert action new) }

/-- Learns from the states of an iteration, in order. -/
def learnPath : List (Option UInt64 × UInt64) → QLearning γ → QLearning γ
  | (_, state) :: (action, next) :: rest, s =>
    let s := match action with
      | some action => s.learnStep rest.isEmpty state action next
      | none => s
    learnPath ((action, next) :: rest) s
  | _, s => s

/-- Forgets what has been learned. -/
def forget (s : QLearning γ) : QLearning γ :=
  { s with table := ∅, visits := {} }

/-- Learns from the iteration; after a bug everything is forgotten instead. -/
def prepare (s : QLearning γ) : QLearning γ :=
  let s := learnPath s.path.reverse s
  let s := if s.bugFound then s.forget else s
  { s with path := [], previousAction := none, bugFound := false, walk := s.walk.prepare }

/-- Forgets the iteration. -/
def reset (s : QLearning γ) : QLearning γ :=
  { s with path := [], previousAction := none, walk := s.walk.reset }

/-- The description of the strategy. -/
def description (s : QLearning γ) : String :=
  s!"QLearning[seed '{s.walk.baseSeed}']"

end QLearning

end ScheduleExplorer
