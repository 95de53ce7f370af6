import ScheduleExplorer.Decimal.Fixed
import ScheduleExplorer.Outcome
import ScheduleExplorer.State.Coverage

/-!
# Reports

A report accounts for a testing run: every iteration with its outcome, step statistics of the fair
and of the unfair schedules, the bugs that were found and the states that were covered. Its text is
for readers, and its data form can be read back.
-/

namespace ScheduleExplorer

/-- A span of time. -/
structure Duration where
  seconds : Nat := 0
  nanoseconds : Nat := 0
deriving DecidableEq, Inhabited

namespace Duration

/-- The number of nanoseconds in a second. -/
def nanosPerSecond : Nat := 1000000000

/-- A span of nanoseconds. -/
def ofNanoseconds (nanoseconds : Nat) : Duration where
  seconds := nanoseconds / nanosPerSecond
  nanoseconds := nanoseconds % nanosPerSecond

/-- The span in seconds with three decimal places, after rounding it to a double. -/
def text (duration : Duration) : String :=
  let seconds := Float.ofNat duration.seconds +
    Float.ofNat duration.nanoseconds / Float.ofNat nanosPerSecond
  match Decimal.Binary64.ofBits? seconds.toBits with
  | some value => Decimal.fixed 3 value
  | none => ""

/-- A span as data. -/
def toJson (duration : Duration) : Json :=
  .object [("secs", .natural duration.seconds), ("nanos", .natural duration.nanoseconds)]

/-- Reads a span from data. It has no other fields; nanoseconds that make up whole seconds are
carried, and the seconds stay below 2 ^ 64. -/
def ofJson? (json : Json) : Option Duration := do
  let fields ← json.fields?
  if fields.all fun (name, _) => name == "secs" || name == "nanos" then
    let seconds ← Json.field? fields "secs" Json.natural?
    let nanoseconds ← Json.field? fields "nanos" Json.natural?
    let carried := seconds + nanoseconds / nanosPerSecond
    if nanoseconds < Nat.pow 2 32 && carried < Nat.pow 2 64 then
      pure { seconds := carried, nanoseconds := nanoseconds % nanosPerSecond }
    else none
  else none

end Duration

/-- Step statistics of some schedules. -/
structure StepStats where
  schedules : Nat := 0
  minSteps : Nat := 0
  maxSteps : Nat := 0
  totalSteps : Nat := 0
deriving DecidableEq, Inhabited

namespace StepStats

/-- Adds a schedule. -/
def record (steps : Nat) (stats : StepStats) : StepStats where
  schedules := stats.schedules + 1
  minSteps := if stats.schedules = 0 then steps else min stats.minSteps steps
  maxSteps := max stats.maxSteps steps
  totalSteps := stats.totalSteps + steps

/-- The mean, rounded down; zero without a schedule. -/
def averageSteps (stats : StepStats) : Nat :=
  stats.totalSteps / stats.schedules

/-- Statistics as data. -/
def toJson (stats : StepStats) : Json :=
  .object [
    ("schedules", .natural stats.schedules),
    ("min_steps", .natural stats.minSteps),
    ("max_steps", .natural stats.maxSteps),
    ("total_steps", .natural stats.totalSteps)]

/-- Reads statistics from data. -/
def ofJson? (json : Json) : Option StepStats := do
  let fields ← json.fields?
  let schedules ← Json.field? fields "schedules" Json.natural?
  let minSteps ← Json.field? fields "min_steps" Json.natural?
  let maxSteps ← Json.field? fields "max_steps" Json.natural?
  let totalSteps ← Json.field? fields "total_steps" Json.natural?
  pure { schedules, minSteps, maxSteps, totalSteps }

/-- The line about a class of schedules; there is none for an empty class. -/
def line (label : String) (stats : StepStats) : String :=
  if stats.schedules = 0 then ""
  else
    s!"  Scheduling steps in {label} schedules: {stats.minSteps} (min), {stats.averageSteps} (avg), {stats.maxSteps} (max).\n"

end StepStats

namespace CoverageCounts

/-- Counts as data. -/
def toJson (counts : CoverageCounts) : Json :=
  .object [
    ("default", .natural counts.default),
    ("inbox_only", .natural counts.inboxOnly),
    ("custom", .natural counts.custom),
    ("full", .natural counts.full)]

/-- Reads counts from data. -/
def ofJson? (json : Json) : Option CoverageCounts := do
  let fields ← json.fields?
  let default ← Json.field? fields "default" Json.natural?
  let inboxOnly ← Json.field? fields "inbox_only" Json.natural?
  let custom ← Json.field? fields "custom" Json.natural?
  let full ← Json.field? fields "full" Json.natural?
  pure { default, inboxOnly, custom, full }

end CoverageCounts

/-- What a report says of an iteration. -/
structure IterationReport where
  iteration : Nat
  outcome : Outcome
  scheduledSteps : Nat
  isFair : Bool
  duration : Duration := {}
deriving DecidableEq, Inhabited

namespace IterationReport

/-- An iteration as data. -/
def toJson (report : IterationReport) : Json :=
  .object [
    ("iteration", .natural report.iteration),
    ("outcome", report.outcome.toJson),
    ("scheduled_steps", .natural report.scheduledSteps),
    ("fair", .bool report.isFair),
    ("duration", report.duration.toJson)]

/-- Reads an iteration from data. -/
def ofJson? (json : Json) : Option IterationReport := do
  let fields ← json.fields?
  let iteration ← Json.field? fields "iteration" Json.natural?
  let outcome ← Json.field? fields "outcome" Outcome.ofJson?
  let scheduledSteps ← Json.field? fields "scheduled_steps" Json.natural?
  let isFair ← Json.field? fields "fair" Json.bool?
  let duration ← Json.field? fields "duration" Duration.ofJson?
  pure { iteration, outcome, scheduledSteps, isFair, duration }

end IterationReport

/-- The report of a testing run. -/
structure Report where
  strategy : String := ""
  bugs : List BugReport := []
  fair : StepStats := {}
  unfair : StepStats := {}
  stepBoundHits : Nat := 0
  isExhausted : Bool := false
  coverage : CoverageCounts := {}
  iterations : List IterationReport := []
  elapsed : Duration := {}
deriving DecidableEq, Inhabited

namespace Report

/-- Adds an iteration. -/
def recordIteration (iteration : IterationReport) (report : Report) : Report :=
  { report with
    fair := if iteration.isFair then report.fair.record iteration.scheduledSteps else report.fair
    unfair :=
      if iteration.isFair then report.unfair else report.unfair.record iteration.scheduledSteps
    stepBoundHits :=
      if iteration.outcome = .stepBoundReached then report.stepBoundHits + 1
      else report.stepBoundHits
    iterations := report.iterations ++ [iteration] }

/-- Adds a bug. -/
def addBug (bug : BugReport) (report : Report) : Report :=
  { report with bugs := report.bugs ++ [bug] }

/-- The number of schedules of both classes. -/
def exploredSchedules (report : Report) : Nat :=
  report.fair.schedules + report.unfair.schedules

/-- Whether a bug was found. -/
def foundBug (report : Report) : Bool :=
  !report.bugs.isEmpty

/-- The bug that was found first. -/
def firstBug? (report : Report) : Option BugReport :=
  report.bugs.head?

/-- The text of a report. -/
def text (report : Report) : String :=
  let coverage := report.coverage
  "Testing statistics:\n" ++
    s!"  Strategy: {report.strategy}\n" ++
    s!"  Found {report.bugs.length} bugs.\n" ++
    s!"  Explored {report.exploredSchedules} schedules: {report.fair.schedules} fair and {report.unfair.schedules} unfair.\n" ++
    report.fair.line "fair" ++
    report.unfair.line "unfair" ++
    s!"  Hit the step bound in {report.stepBoundHits} schedules.\n" ++
    (if report.isExhausted then "  The strategy explored its whole search space.\n" else "") ++
    s!"  Distinct states: {coverage.default} default, {coverage.inboxOnly} inbox-only, {coverage.custom} custom, {coverage.full} full.\n" ++
    s!"  Elapsed {report.elapsed.text}s."

/-- A report as data. -/
def toJson (report : Report) : Json :=
  .object [
    ("strategy", .string report.strategy),
    ("bugs", .array (report.bugs.map BugReport.toJson)),
    ("fair", report.fair.toJson),
    ("unfair", report.unfair.toJson),
    ("step_bound_hits", .natural report.stepBoundHits),
    ("strategy_exhausted", .bool report.isExhausted),
    ("coverage", report.coverage.toJson),
    ("iterations", .array (report.iterations.map IterationReport.toJson)),
    ("elapsed", report.elapsed.toJson)]

/-- Reads a list of values from data. -/
def listOfJson? {α : Type} (read : Json → Option α) (json : Json) : Option (List α) :=
  json.items?.bind fun items => items.mapM read

/-- Reads a report from data. -/
def ofJson? (json : Json) : Option Report := do
  let fields ← json.fields?
  let strategy ← Json.field? fields "strategy" Json.string?
  let bugs ← Json.field? fields "bugs" (listOfJson? BugReport.ofJson?)
  let fair ← Json.field? fields "fair" StepStats.ofJson?
  let unfair ← Json.field? fields "unfair" StepStats.ofJson?
  let stepBoundHits ← Json.field? fields "step_bound_hits" Json.natural?
  let isExhausted ← Json.field? fields "strategy_exhausted" Json.bool?
  let coverage ← Json.field? fields "coverage" CoverageCounts.ofJson?
  let iterations ← Json.field? fields "iterations" (listOfJson? IterationReport.ofJson?)
  let elapsed ← Json.field? fields "elapsed" Duration.ofJson?
  pure {
    strategy, bugs, fair, unfair, stepBoundHits, isExhausted, coverage, iterations, elapsed }

end Report

end ScheduleExplorer
