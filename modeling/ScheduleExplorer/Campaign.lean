import ScheduleExplorer.Config
import ScheduleExplorer.Execution
import ScheduleExplorer.Random.ChaCha
import ScheduleExplorer.Report

/-!
# Testing campaigns

A campaign runs a program again and again, each time under the next schedule of one strategy, until
the budget is used up, the strategy has nothing left, or a bug ends it. The trace of a bug can be
replayed on the program.

A campaign is run from any kind of source, given as a source for each seed; by default its strategies
draw from ChaCha streams. Executions are given fuel; without enough of it a campaign has no result.
-/

namespace ScheduleExplorer

/-- A testing campaign: its settings and the names of its liveness monitors. -/
structure Campaign where
  config : Config
  monitors : List String := []

/-- What a campaign gives: a report, or the fault that ended it, and the memories of the program at
the end of each iteration. -/
structure Exploration (μ : Type) where
  result : Except Fault Report
  memories : List μ

namespace Campaign

/-- A campaign with valid settings. -/
def ofConfig (config : Config) (monitors : List String) : Except Fault Campaign :=
  config.validate.map fun _ => { config, monitors }

/-- The monitors, all cold. -/
def registry (campaign : Campaign) : Monitors :=
  .ofNames campaign.config.effectiveThreshold campaign.monitors

/-- A strategy that also watches the monitors, if there are any. -/
def watched {γ : Type} (campaign : Campaign) (strategy : Strategy γ) : Strategy γ :=
  if campaign.monitors.isEmpty then strategy else .liveness strategy

/-- How far a campaign has come. -/
structure Progress (γ μ : Type) where
  /-- The number of the next iteration. -/
  iteration : Nat := 0
  strategy : Strategy γ
  monitors : Monitors
  coverage : Coverage := {}
  report : Report
  memories : List μ := []

namespace Progress

variable {γ μ : Type} [RandomSource γ]

/-- The beginning of a campaign. -/
def start (strategy : Strategy γ) (monitors : Monitors) : Progress γ μ :=
  { strategy, monitors, report := { strategy := strategy.description } }

/-- The next iteration, before it begins. -/
def nextIteration (config : Config) (p : Progress γ μ) : Iteration γ where
  strategy := p.strategy
  monitors := p.monitors.resetForIteration
  coverage := p.coverage
  depthBoundIsBug := config.depthBoundIsBug

/-- What is reported of a bug. -/
def bugReport (kind : BugKind) (result : IterationResult γ) (p : Progress γ μ) : BugReport where
  kind
  message := result.message.getD (toString kind)
  trace := result.trace
  scheduledSteps := result.scheduledSteps
  iteration := p.iteration
  strategy := p.strategy.description

/-- Takes the result of the iteration into the report. -/
def record (result : IterationResult γ) (memory : μ) (p : Progress γ μ) : Progress γ μ :=
  let report := p.report.recordIteration {
    iteration := p.iteration
    outcome := result.outcome
    scheduledSteps := result.scheduledSteps
    isFair := result.strategy.isFair }
  let report := match result.outcome with
    | .bugFound kind => report.addBug (p.bugReport kind result)
    | _ => report
  { p with
    strategy := result.strategy
    monitors := result.monitors
    coverage := result.coverage
    report
    memories := p.memories ++ [memory] }

/-- The end of a campaign. -/
def finish (p : Progress γ μ) : Exploration μ where
  result := .ok { p.report with coverage := p.coverage.counts }
  memories := p.memories

/-- The end of a campaign whose strategy has nothing left. -/
def exhaust (p : Progress γ μ) : Exploration μ :=
  { p with report := { p.report with isExhausted := true } }.finish

/-- The end of a campaign by a fault. -/
def fail (fault : Fault) (memory : μ) (p : Progress γ μ) : Exploration μ where
  result := .error fault
  memories := p.memories ++ [memory]

end Progress

variable {γ σ μ : Type} [RandomSource γ]

/-- Runs at most `budget` more iterations. After the last one the strategy does not move on. -/
def explore (campaign : Campaign) (program : Program σ μ) (fuel : Nat) :
    Nat → Progress γ μ → Option (Exploration μ)
  | 0, p => some p.finish
  | budget + 1, p =>
    match program.run fuel (p.nextIteration campaign.config) with
    | none => none
    | some (result, memory) =>
      match result.fault with
      | some fault => some (p.fail fault memory)
      | none =>
        let p := p.record result memory
        if result.outcome.isBug && campaign.config.stopOnFirstBug then some p.finish
        else if budget = 0 then some p.finish
        else
          let (more, strategy) := p.strategy.prepare
          let p := { p with strategy, iteration := p.iteration + 1 }
          if more then campaign.explore program fuel budget p else some p.exhaust

/-- Runs the campaign with strategies that draw from the sources of their seeds. -/
def runFrom (campaign : Campaign) (source : UInt64 → γ) (program : Program σ μ) (fuel : Nat) :
    Option (Exploration μ) :=
  campaign.explore program fuel campaign.config.iterations
    (.start (campaign.watched (campaign.config.strategy source)) campaign.registry)

/-- Replays a trace in one iteration. -/
def replayFrom (campaign : Campaign) (source : UInt64 → γ) (trace : Trace) (program : Program σ μ)
    (fuel : Nat) : Option (Exploration μ) :=
  campaign.explore program fuel 1
    (.start (campaign.watched (campaign.config.replayStrategy source trace)) campaign.registry)

/-- Runs the campaign with ChaCha streams. -/
def run (campaign : Campaign) (program : Program σ μ) (fuel : Nat) : Option (Exploration μ) :=
  campaign.runFrom ChaChaSource.ofSeed program fuel

/-- Replays a trace in one iteration, with ChaCha streams. -/
def replay (campaign : Campaign) (trace : Trace) (program : Program σ μ) (fuel : Nat) :
    Option (Exploration μ) :=
  campaign.replayFrom ChaChaSource.ofSeed trace program fuel

end Campaign

end ScheduleExplorer
