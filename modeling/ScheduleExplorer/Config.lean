import ScheduleExplorer.Selection
import ScheduleExplorer.State.Level
import ScheduleExplorer.Strategy

/-!
# Configurations

The settings of a testing run: how many iterations, which strategy, which bounds. A configuration is
read from data with defaults for the fields that are missing, and is validated before it is used.
`Config.strategy` builds the selected strategy.
-/

namespace ScheduleExplorer

/-- The settings of a testing run. -/
structure Config where
  iterations : Nat := 100
  seed : UInt64 := 0
  selection : Selection := .random
  /-- The step bound of unfair strategies; zero for none. -/
  maxUnfairSteps : Nat := 10000
  /-- The step bound of fair strategies; zero for none. -/
  maxFairSteps : Nat := 100000
  /-- How long a monitor may stay hot; zero lets the step bound decide. -/
  temperatureThreshold : Nat := 0
  /-- Whether reaching the step bound counts as a bug. -/
  depthBoundIsBug : Bool := false
  level : AbstractionLevel := .default
  stopOnFirstBug : Bool := true
  raceReversalLimit : Nat := 10
deriving DecidableEq, Inhabited

namespace Config

/-- The temperature above which a hot monitor is a bug: half the fair step bound unless it is set,
and out of reach without a bound. -/
def effectiveThreshold (config : Config) : Nat :=
  if config.temperatureThreshold ≠ 0 then config.temperatureThreshold
  else if config.maxFairSteps = 0 then Nat.pow 2 64 - 1
  else max (config.maxFairSteps / 2) 1

/-- Checks the settings; the first rule that is broken is the fault. -/
def validate (config : Config) : Except Fault Unit :=
  if config.iterations = 0 then .error (.invalidConfig "iterations must be at least 1")
  else if 0 < config.maxFairSteps &&
      (config.maxUnfairSteps == 0 || config.maxFairSteps < config.maxUnfairSteps) then
    .error (.invalidConfig
      s!"max_fair_steps ({config.maxFairSteps}) must not be below max_unfair_steps ({config.maxUnfairSteps})")
  else if config.selection = .sticky 0 then
    .error (.invalidConfig "prob needs at least one coin flip")
  else if config.selection = .randomDpor && config.raceReversalLimit == 0 then
    .error (.invalidConfig "race_reversal_limit must be at least 1 for rdpor")
  else .ok ()

/-! ### Data -/

/-- A configuration as data. -/
def toJson (config : Config) : Json :=
  .object [
    ("iterations", .natural config.iterations),
    ("seed", .natural config.seed.toNat),
    ("strategy", .string config.selection.text),
    ("max_unfair_steps", .natural config.maxUnfairSteps),
    ("max_fair_steps", .natural config.maxFairSteps),
    ("liveness_temperature_threshold", .natural config.temperatureThreshold),
    ("consider_depth_bound_hit_as_bug", .bool config.depthBoundIsBug),
    ("abstraction_level", .string config.level.name),
    ("stop_on_first_bug", .bool config.stopOnFirstBug),
    ("race_reversal_limit", .natural config.raceReversalLimit)]

/-- Reads a selection from data. -/
def selectionOfJson? (json : Json) : Option Selection :=
  json.string?.bind fun text => (Selection.parse text).toOption

/-- Reads a configuration from data. A field that is missing has its default. -/
def ofJson? (json : Json) : Option Config := do
  let fields ← json.fields?
  let standard : Config := {}
  let natural (name : String) (default : Nat) : Option Nat :=
    Json.fieldOr? fields name Json.natural? default
  let flag (name : String) (default : Bool) : Option Bool :=
    Json.fieldOr? fields name Json.bool? default
  let iterations ← natural "iterations" standard.iterations
  let seed ← natural "seed" standard.seed.toNat
  let selection ← Json.fieldOr? fields "strategy" selectionOfJson? standard.selection
  let maxUnfairSteps ← natural "max_unfair_steps" standard.maxUnfairSteps
  let maxFairSteps ← natural "max_fair_steps" standard.maxFairSteps
  let temperatureThreshold ←
    natural "liveness_temperature_threshold" standard.temperatureThreshold
  let depthBoundIsBug ← flag "consider_depth_bound_hit_as_bug" standard.depthBoundIsBug
  let level ←
    Json.fieldOr? fields "abstraction_level" AbstractionLevel.ofJson? standard.level
  let stopOnFirstBug ← flag "stop_on_first_bug" standard.stopOnFirstBug
  let raceReversalLimit ← natural "race_reversal_limit" standard.raceReversalLimit
  pure {
    iterations, seed := UInt64.ofNat seed, selection, maxUnfairSteps, maxFairSteps
    temperatureThreshold, depthBoundIsBug, level, stopOnFirstBug, raceReversalLimit }

/-! ### Strategies -/

/-- The seed for the second part of a combination: the one of the last iteration of all. -/
def restSeed (seed : UInt64) : UInt64 :=
  deriveSeed seed (0 - 1)

variable {γ : Type} [RandomSource γ]

/-- The strategy for a selection, drawing from sources made from seeds. Fair strategies have the
fair step bound and the others the unfair one. -/
def build (config : Config) (source : UInt64 → γ) : Selection → UInt64 → Strategy γ
  | .random, seed => .random (.ofSource (source seed) config.maxFairSteps)
  | .sticky flips, seed =>
    .sticky { walk := .ofSource (source seed) config.maxFairSteps, coinFlips := flips }
  | .priority points, seed => .priority (.ofSource (source seed) config.maxFairSteps points)
  | .fairPriority points, seed =>
    .combo (.priority (.ofSource (source seed) config.maxUnfairSteps points))
      (.random (.ofSource (source (restSeed seed)) config.maxFairSteps))
  | .delayBounding delays, seed =>
    .delayBounding (.ofSource (source seed) config.maxUnfairSteps delays false config.level)
  | .iterativeDelayBounding delays, seed =>
    .delayBounding (.ofSource (source seed) config.maxUnfairSteps delays true config.level)
  | .depthFirst, _ => .depthFirst { maxSteps := config.maxUnfairSteps }
  | .dpor, _ => .dpor { maxSteps := config.maxUnfairSteps }
  | .randomDpor, seed =>
    .dpor (.ofSource (source seed) config.maxUnfairSteps config.raceReversalLimit)
  | .qLearning, seed => .qLearning (.ofSource (source seed) config.maxFairSteps config.level)
  | .novelty, seed => .novelty (.ofSource (source seed) config.maxFairSteps config.level)
  | .combo lead rest, seed =>
    .combo (config.build source lead seed) (config.build source rest (restSeed seed))

/-- The selected strategy. -/
def strategy (config : Config) (source : UInt64 → γ) : Strategy γ :=
  config.build source config.selection config.seed

/-- The strategy that replays a trace under the bounds of the selected strategy. -/
def replayStrategy (config : Config) (source : UInt64 → γ) (trace : Trace) : Strategy γ :=
  let isFair := (config.strategy source).isFair
  let maxSteps := if isFair then config.maxFairSteps else config.maxUnfairSteps
  .replay { trace, maxSteps, isFair }

end Config

end ScheduleExplorer
