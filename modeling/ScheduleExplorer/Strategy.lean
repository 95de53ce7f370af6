import ScheduleExplorer.Dpor.Search
import ScheduleExplorer.Monitor
import ScheduleExplorer.Strategy.DelayBounding
import ScheduleExplorer.Strategy.DepthFirst
import ScheduleExplorer.Strategy.Novelty
import ScheduleExplorer.Strategy.Priority
import ScheduleExplorer.Strategy.QLearning
import ScheduleExplorer.Strategy.Replay

/-!
# Strategies

A strategy answers the queries of an iteration and moves on between iterations. Nine strategies
stand on their own. A combination runs its lead until the lead reaches its step bound and then its
rest; the liveness decorator checks the temperature of the monitors before each query and answers
nothing after a violation, provided that the strategy inside is fair.
-/

namespace ScheduleExplorer

variable {γ : Type} [RandomSource γ]

/-- A scheduling strategy that draws from sources of type `γ`. -/
inductive Strategy (γ : Type) where
  | random (s : RandomWalk γ)
  | sticky (s : StickyWalk γ)
  | delayBounding (s : DelayBounding γ)
  | priority (s : PrioritySchedule γ)
  | depthFirst (s : DepthFirst)
  | dpor (s : Dpor γ)
  | qLearning (s : QLearning γ)
  | novelty (s : NoveltyWalk γ)
  | replay (s : Replay)
  | combo (lead rest : Strategy γ)
  | liveness (inner : Strategy γ)

namespace Strategy

/-- Whether every operation that stays enabled is scheduled in the end, so that a monitor that stays
hot proves something. -/
def isFair : Strategy γ → Bool
  | random _ | sticky _ | priority _ | qLearning _ | novelty _ => true
  | delayBounding _ | depthFirst _ | dpor _ => false
  | replay s => s.isFair
  | combo _ rest => rest.isFair
  | liveness inner => inner.isFair

/-- Whether the step bound of the iteration is reached. -/
def atBound : Strategy γ → Bool
  | random s => s.atBound
  | sticky s => s.walk.atBound
  | delayBounding s => s.walk.atBound
  | priority s => s.walk.atBound
  | depthFirst s => boundReached s.steps s.maxSteps
  | dpor s => boundReached s.steps s.maxSteps
  | qLearning s => s.walk.atBound
  | novelty s => s.walk.atBound
  | replay s => boundReached s.steps s.maxSteps
  | combo _ rest => rest.atBound
  | liveness inner => inner.atBound

/-- The number of decisions in the iteration. -/
def steps : Strategy γ → Nat
  | random s => s.steps
  | sticky s => s.walk.steps
  | delayBounding s => s.walk.steps
  | priority s => s.walk.steps
  | depthFirst s => s.steps
  | dpor s => s.steps
  | qLearning s => s.walk.steps
  | novelty s => s.walk.steps
  | replay s => s.steps
  | combo lead rest => if lead.atBound then lead.steps + rest.steps else lead.steps
  | liveness inner => inner.steps

/-- The description of a strategy. -/
def description : Strategy γ → String
  | random s => s.description
  | sticky s => s.description
  | delayBounding s => s.description
  | priority s => s.description
  | depthFirst _ => "DFS"
  | dpor s => s.description
  | qLearning s => s.description
  | novelty s => s.description
  | replay s => s.description
  | combo lead rest => "Combo[" ++ lead.description ++ "," ++ rest.description ++ "]"
  | liveness inner => inner.description

/-- Checks the monitors before a query: nothing happens under an unfair strategy or after a
violation. -/
def checkMonitors (inner : Strategy γ) (monitors : Monitors) : Monitors :=
  if inner.isFair && monitors.violation.isNone then monitors.checkTemperature else monitors

/-- Whether a violation keeps the decorator from asking the strategy inside. -/
def isHalted (inner : Strategy γ) (monitors : Monitors) : Bool :=
  inner.isFair && monitors.violation.isSome

/-- Answers a query of the running operation. -/
def answer (current : Operation) (query : Query) :
    Strategy γ → Monitors → Option query.Answer × Strategy γ × Monitors
  | random s, monitors => let (a, s) := s.answer query; (a, random s, monitors)
  | sticky s, monitors => let (a, s) := s.answer current query; (a, sticky s, monitors)
  | delayBounding s, monitors =>
    let (a, s) := s.answer current query; (a, delayBounding s, monitors)
  | priority s, monitors => let (a, s) := s.answer current query; (a, priority s, monitors)
  | depthFirst s, monitors => let (a, s) := s.answer query; (a, depthFirst s, monitors)
  | dpor s, monitors => let (a, s) := s.answer current query; (a, dpor s, monitors)
  | qLearning s, monitors => let (a, s) := s.answer current query; (a, qLearning s, monitors)
  | novelty s, monitors => let (a, s) := s.answer current query; (a, novelty s, monitors)
  | replay s, monitors => let (a, s) := s.answer query; (a, replay s, monitors)
  | combo lead rest, monitors =>
    if lead.atBound then
      let (a, rest, monitors) := answer current query rest monitors
      (a, combo lead rest, monitors)
    else
      let (a, lead, monitors) := answer current query lead monitors
      (a, combo lead rest, monitors)
  | liveness inner, monitors =>
    let monitors := checkMonitors inner monitors
    if isHalted inner monitors then (none, liveness inner, monitors)
    else
      let (a, inner, monitors) := answer current query inner monitors
      (a, liveness inner, monitors)

/-- Tells a strategy that the iteration has found a bug. -/
def notifyBug : Strategy γ → Strategy γ
  | qLearning s => qLearning s.notifyBug
  | combo lead rest => combo lead.notifyBug rest.notifyBug
  | liveness inner => liveness inner.notifyBug
  | s => s

/-- Moves on to the next iteration; false when the strategy has nothing left to explore. -/
def prepare : Strategy γ → Bool × Strategy γ
  | random s => (true, random s.prepare)
  | sticky s => (true, sticky { s with walk := s.walk.prepare })
  | delayBounding s => (true, delayBounding s.prepare)
  | priority s => (true, priority s.prepare)
  | depthFirst s => let (more, s) := s.prepare; (more, depthFirst s)
  | dpor s => let (more, s) := s.prepare; (more, dpor s)
  | qLearning s => (true, qLearning s.prepare)
  | novelty s => (true, novelty s.prepare)
  | replay s => (false, replay s.reset)
  | combo lead rest =>
    let (moreLead, lead) := lead.prepare
    let (moreRest, rest) := rest.prepare
    (moreLead || moreRest, combo lead rest)
  | liveness inner => let (more, inner) := inner.prepare; (more, liveness inner)

/-- Forgets the iteration, as far as the strategy can. -/
def reset : Strategy γ → Strategy γ
  | random s => random s.reset
  | sticky s => sticky { s with walk := s.walk.reset }
  | delayBounding s => delayBounding s.reset
  | priority s => priority s.reset
  | depthFirst s => depthFirst s.reset
  | dpor s => dpor s.reset
  | qLearning s => qLearning s.reset
  | novelty s => novelty s.reset
  | replay s => replay s.reset
  | combo lead rest => combo lead.reset rest.reset
  | liveness inner => liveness inner.reset

/-- Takes the first recorded fault. -/
def takeFault : Strategy γ → Option Fault × Strategy γ
  | replay s => let (fault, s) := s.takeFault; (fault, replay s)
  | combo lead rest =>
    match lead.takeFault with
    | (some fault, lead) => (some fault, combo lead rest)
    | (none, lead) =>
      let (fault, rest) := rest.takeFault
      (fault, combo lead rest)
  | liveness inner => let (fault, inner) := inner.takeFault; (fault, liveness inner)
  | s => (none, s)

end Strategy

end ScheduleExplorer
