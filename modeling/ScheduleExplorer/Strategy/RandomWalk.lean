import ScheduleExplorer.Random.Seed
import ScheduleExplorer.Random.Source
import ScheduleExplorer.Strategy.Bound
import ScheduleExplorer.Trace

/-!
# Random walks

Two fair strategies: a uniform choice at every query, and a sticky one that leaves the running
operation only when a number of coin flips all come up tails. Every iteration draws from a seed of
its own.
-/

namespace ScheduleExplorer

variable {γ : Type} [RandomSource γ]

/-- The state that every strategy with draws of its own has: its source, the seed it began with, and
the steps and iterations taken. -/
structure RandomWalk (γ : Type) where
  source : γ
  baseSeed : UInt64
  iterations : Nat := 0
  steps : Nat := 0
  maxSteps : Nat

namespace RandomWalk

/-- A walk whose base seed is the seed of its source. -/
def ofSource (source : γ) (maxSteps : Nat) : RandomWalk γ :=
  { source, baseSeed := RandomSource.seed source, maxSteps }

/-- Draws below a bound, without counting a step. -/
def draw (bound : Nat) (walk : RandomWalk γ) : Nat × RandomWalk γ :=
  let (n, source) := RandomSource.nextBounded bound walk.source
  (n, { walk with source })

/-- Counts a step. -/
def step (walk : RandomWalk γ) : RandomWalk γ :=
  { walk with steps := walk.steps + 1 }

/-- Draws one of some operations. -/
def pick (ids : List OperationId) (walk : RandomWalk γ) : Option OperationId × RandomWalk γ :=
  if ids.isEmpty then (none, walk)
  else
    let (index, walk) := walk.draw ids.length
    (ids[index]?, walk)

/-- Answers a query by one draw. -/
def answer (query : Query) (walk : RandomWalk γ) : Option query.Answer × RandomWalk γ :=
  match query with
  | .operation ops =>
    match walk.pick (Operation.enabledIds ops) with
    | (some id, walk) => (some id, walk.step)
    | (none, walk) => (none, walk)
  | .boolean max =>
    let (n, walk) := walk.draw max
    (some (n == 0), walk.step)
  | .integer max =>
    let (n, walk) := walk.draw max
    (some n, walk.step)

/-- The walk of the next iteration. -/
def prepare (walk : RandomWalk γ) : RandomWalk γ :=
  { walk with
    iterations := walk.iterations + 1
    source := RandomSource.reseed (deriveSeed walk.baseSeed (UInt64.ofNat (walk.iterations + 1)))
      walk.source
    steps := 0 }

/-- Forgets the steps of the iteration. -/
def reset (walk : RandomWalk γ) : RandomWalk γ :=
  { walk with steps := 0 }

/-- Whether the step bound is reached. -/
def atBound (walk : RandomWalk γ) : Bool :=
  boundReached walk.steps walk.maxSteps

/-- The description of a uniform walk. -/
def description (walk : RandomWalk γ) : String :=
  s!"Random[seed '{walk.baseSeed}']"

end RandomWalk

/-- A walk that stays with the running operation until `coinFlips` coins all come up tails. -/
structure StickyWalk (γ : Type) where
  walk : RandomWalk γ
  coinFlips : Nat

namespace StickyWalk

/-- Flips coins until one comes up heads; true if none does. -/
def allTails : Nat → RandomWalk γ → Bool × RandomWalk γ
  | 0, walk => (true, walk)
  | flips + 1, walk =>
    let (n, walk) := walk.draw 2
    if n = 1 then (false, walk) else allTails flips walk

/-- Answers a query. The coins are flipped whenever there is a choice between operations, even if
the running operation cannot go on. -/
def answer (current : Operation) (query : Query) (sticky : StickyWalk γ) :
    Option query.Answer × StickyWalk γ :=
  match query with
  | .operation ops =>
    let ids := Operation.enabledIds ops
    if ids.isEmpty then (none, sticky)
    else
      let walk := sticky.walk.step
      let (leave, walk) := if 1 < ids.length then allTails sticky.coinFlips walk else (true, walk)
      if !leave && current.isEnabled then (some current.id, { sticky with walk })
      else
        let (id, walk) := walk.pick ids
        (id, { sticky with walk })
  | query =>
    let (a, walk) := sticky.walk.answer query
    (a, { sticky with walk })

/-- The description of a sticky walk. -/
def description (sticky : StickyWalk γ) : String :=
  s!"ProbabilisticRandom[seed '{sticky.walk.baseSeed}', coin flips '{sticky.coinFlips}']"

end StickyWalk

end ScheduleExplorer
