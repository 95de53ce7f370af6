import ScheduleExplorer.Proofs.Json.RoundTrip
import ScheduleExplorer.Report

/-!
# Reports and traces are read back

What a report keeps as data is read back as the report: every bug with every decision of its trace, every
row with its outcome, and the statistics. A span of time is carried into whole seconds when it is read, so
it is read back if its nanoseconds make up less than a second. If its numbers are machine words, a report
is also read back from its text.
-/

namespace ScheduleExplorer

/-! ### Traces -/

/-- A kind of bug is read from its key. -/
theorem BugKind.ofJson?_toJson (kind : BugKind) : ofJson? kind.toJson = some kind := by
  cases kind <;> rfl

/-- An outcome is read from its form. -/
theorem Outcome.ofJson?_toJson (outcome : Outcome) : ofJson? outcome.toJson = some outcome := by
  cases outcome with
  | completed => rfl
  | bugFound kind => exact congrArg (Option.map bugFound) kind.ofJson?_toJson
  | stepBoundReached => rfl

/-- The form of an outcome can be written. -/
theorem Outcome.isPlain_toJson (outcome : Outcome) : outcome.toJson.IsPlain := by
  cases outcome with
  | completed => exact .string _
  | bugFound kind => exact .field (.string kind.key) .noFields
  | stepBoundReached => exact .string _

/-- A decision is read from its form. -/
theorem Decision.ofJson?_toJson (decision : Decision) : ofJson? decision.toJson = some decision := by
  cases decision <;> rfl

/-- The number of a decision is a machine word. -/
def Decision.FitsWords : Decision → Prop
  | operation id => id.index < Nat.pow 2 64
  | boolean _ => True
  | integer value => value < Nat.pow 2 64

/-- The form of a decision of words can be written. -/
theorem Decision.FitsWords.isPlain_toJson {decision : Decision} (h : decision.FitsWords) :
    decision.toJson.IsPlain := by
  cases decision with
  | operation id => exact .field (.string _) (.field (.natural h) .noFields)
  | boolean value => exact .field (.string _) (.field (.bool value) .noFields)
  | integer value => exact .field (.string _) (.field (.natural h) .noFields)

namespace Trace

/-- A trace is read back decision by decision. -/
theorem ofJson?_toJson (trace : Trace) : ofJson? trace.toJson = some trace := by
  have hdecisions : (trace.toList.map Decision.toJson).mapM Decision.ofJson? = some trace.toList :=
    Json.mapM_map_eq_some fun decision _ => decision.ofJson?_toJson
  rw [toJson, ofJson?, Json.items?, Option.bind_eq_bind, Option.bind_some, hdecisions]
  rfl

/-- The numbers of a trace are machine words. -/
def FitsWords (trace : Trace) : Prop :=
  ∀ decision ∈ trace.toList, decision.FitsWords

/-- The form of a trace of words can be written. -/
theorem FitsWords.isPlain_toJson {trace : Trace} (h : trace.FitsWords) : trace.toJson.IsPlain :=
  .items fun decision hdecision => (h decision hdecision).isPlain_toJson

end Trace

/-! ### Parts of a report -/

namespace BugReport

/-- A bug is read from its form. -/
theorem ofJson?_toJson (bug : BugReport) : ofJson? bug.toJson = some bug := by
  have hfields : ofJson? bug.toJson = (do
      let kind ← BugKind.ofJson? bug.kind.toJson
      let trace ← Trace.ofJson? bug.trace.toJson
      pure { bug with kind, trace }) := rfl
  rw [hfields, BugKind.ofJson?_toJson, Trace.ofJson?_toJson]
  rfl

/-- The numbers of a bug report are machine words. -/
structure FitsWords (bug : BugReport) : Prop where
  trace : bug.trace.FitsWords
  scheduledSteps : bug.scheduledSteps < Nat.pow 2 64
  iteration : bug.iteration < Nat.pow 2 64

/-- The form of a bug report of words can be written. -/
theorem FitsWords.isPlain_toJson {bug : BugReport} (h : bug.FitsWords) : bug.toJson.IsPlain :=
  .field (.string bug.kind.key) <| .field (.string bug.message) <| .field h.trace.isPlain_toJson <|
    .field (.natural h.scheduledSteps) <| .field (.natural h.iteration) <|
      .field (.string bug.strategy) .noFields

end BugReport

namespace StepStats

/-- The numbers of statistics are machine words. -/
structure FitsWords (stats : StepStats) : Prop where
  schedules : stats.schedules < Nat.pow 2 64
  minSteps : stats.minSteps < Nat.pow 2 64
  maxSteps : stats.maxSteps < Nat.pow 2 64
  totalSteps : stats.totalSteps < Nat.pow 2 64

/-- The form of statistics of words can be written. -/
theorem FitsWords.isPlain_toJson {stats : StepStats} (h : stats.FitsWords) : stats.toJson.IsPlain :=
  .field (.natural h.schedules) <| .field (.natural h.minSteps) <| .field (.natural h.maxSteps) <|
    .field (.natural h.totalSteps) .noFields

end StepStats

namespace CoverageCounts

/-- The numbers of states are machine words. -/
structure FitsWords (counts : CoverageCounts) : Prop where
  default : counts.default < Nat.pow 2 64
  inboxOnly : counts.inboxOnly < Nat.pow 2 64
  custom : counts.custom < Nat.pow 2 64
  full : counts.full < Nat.pow 2 64

/-- The form of coverage counts of words can be written. -/
theorem FitsWords.isPlain_toJson {counts : CoverageCounts} (h : counts.FitsWords) :
    counts.toJson.IsPlain :=
  .field (.natural h.default) <| .field (.natural h.inboxOnly) <| .field (.natural h.custom) <|
    .field (.natural h.full) .noFields

end CoverageCounts

namespace Duration

/-- The seconds of a span are a machine word, and its nanoseconds make up less than a second. -/
structure IsProper (duration : Duration) : Prop where
  seconds : duration.seconds < Nat.pow 2 64
  nanoseconds : duration.nanoseconds < nanosPerSecond

variable {duration : Duration}

/-- Nothing is carried when a proper span is read. -/
theorem IsProper.ofJson?_toJson (h : duration.IsProper) : ofJson? duration.toJson = some duration := by
  have hcarried : duration.seconds + duration.nanoseconds / nanosPerSecond = duration.seconds := by
    rw [Nat.div_eq_of_lt h.nanoseconds, Nat.add_zero]
  have hfits : duration.nanoseconds < Nat.pow 2 32 && duration.seconds < Nat.pow 2 64 := by
    rw [Bool.and_eq_true, decide_eq_true_eq, decide_eq_true_eq]
    exact ⟨Nat.lt_trans h.nanoseconds (by decide), h.seconds⟩
  have hfields : ofJson? duration.toJson =
      let carried := duration.seconds + duration.nanoseconds / nanosPerSecond
      if duration.nanoseconds < Nat.pow 2 32 && carried < Nat.pow 2 64 then
        some { seconds := carried, nanoseconds := duration.nanoseconds % nanosPerSecond }
      else none := rfl
  rw [hfields, hcarried]
  dsimp only
  rw [if_pos hfits, Nat.mod_eq_of_lt h.nanoseconds]

/-- The form of a proper span can be written. -/
theorem IsProper.isPlain_toJson (h : duration.IsProper) : duration.toJson.IsPlain :=
  .field (.natural h.seconds) <|
    .field (.natural (Nat.lt_trans h.nanoseconds (by decide))) .noFields

end Duration

namespace IterationReport

variable {report : IterationReport}

/-- An iteration of a proper span is read from its form. -/
theorem ofJson?_toJson (h : report.duration.IsProper) : ofJson? report.toJson = some report := by
  have hfields : ofJson? report.toJson = (do
      let outcome ← Outcome.ofJson? report.outcome.toJson
      let duration ← Duration.ofJson? report.duration.toJson
      pure { report with outcome, duration }) := rfl
  rw [hfields, Outcome.ofJson?_toJson, h.ofJson?_toJson]
  rfl

/-- The numbers of a row are machine words. -/
structure FitsWords (report : IterationReport) : Prop where
  iteration : report.iteration < Nat.pow 2 64
  scheduledSteps : report.scheduledSteps < Nat.pow 2 64
  duration : report.duration.IsProper

/-- The form of an iteration of words can be written. -/
theorem FitsWords.isPlain_toJson (h : report.FitsWords) : report.toJson.IsPlain :=
  .field (.natural h.iteration) <| .field report.outcome.isPlain_toJson <|
    .field (.natural h.scheduledSteps) <| .field (.bool report.isFair) <|
      .field h.duration.isPlain_toJson .noFields

end IterationReport

/-! ### Reports -/

namespace Report

/-- The spans of time in a report are proper. -/
structure HasProperSpans (report : Report) : Prop where
  elapsed : report.elapsed.IsProper
  iterations : ∀ row ∈ report.iterations, row.duration.IsProper

/-- The numbers of a report are machine words. -/
structure FitsWords (report : Report) : Prop where
  bugs : ∀ bug ∈ report.bugs, bug.FitsWords
  fair : report.fair.FitsWords
  unfair : report.unfair.FitsWords
  stepBoundHits : report.stepBoundHits < Nat.pow 2 64
  coverage : report.coverage.FitsWords
  iterations : ∀ row ∈ report.iterations, row.FitsWords
  elapsed : report.elapsed.IsProper

variable {report : Report}

/-- A report with proper spans is read from its form. -/
theorem HasProperSpans.ofJson?_toJson (h : report.HasProperSpans) :
    ofJson? report.toJson = some report := by
  have hbugs : listOfJson? BugReport.ofJson? (.array (report.bugs.map BugReport.toJson)) =
      some report.bugs := Json.mapM_map_eq_some fun bug _ => bug.ofJson?_toJson
  have hiterations : listOfJson? IterationReport.ofJson?
      (.array (report.iterations.map IterationReport.toJson)) = some report.iterations :=
    Json.mapM_map_eq_some fun row hrow => IterationReport.ofJson?_toJson (h.iterations row hrow)
  have hfields : ofJson? report.toJson = (do
      let bugs ← listOfJson? BugReport.ofJson? (.array (report.bugs.map BugReport.toJson))
      let iterations ← listOfJson? IterationReport.ofJson?
        (.array (report.iterations.map IterationReport.toJson))
      let elapsed ← Duration.ofJson? report.elapsed.toJson
      pure { report with bugs, iterations, elapsed }) := rfl
  rw [hfields, hbugs, hiterations, h.elapsed.ofJson?_toJson]
  rfl

/-- The form of a report of words can be written. -/
theorem FitsWords.isPlain_toJson (h : report.FitsWords) : report.toJson.IsPlain :=
  .field (.string report.strategy) <|
    .field (.items fun bug hbug => (h.bugs bug hbug).isPlain_toJson) <|
      .field h.fair.isPlain_toJson <| .field h.unfair.isPlain_toJson <|
        .field (.natural h.stepBoundHits) <| .field (.bool report.isExhausted) <|
          .field h.coverage.isPlain_toJson <|
            .field (.items fun row hrow => (h.iterations row hrow).isPlain_toJson) <|
              .field h.elapsed.isPlain_toJson .noFields

/-- A report and a trace are read back from their data, and from their text if their numbers are machine
words. -/
theorem readsBack_of_hasProperSpans (h : report.HasProperSpans) (trace : Trace) :
    ofJson? report.toJson = some report ∧ Trace.ofJson? trace.toJson = some trace ∧
      (report.FitsWords → (Json.parse? report.toJson.render).bind ofJson? = some report) ∧
      (trace.FitsWords → (Json.parse? trace.toJson.render).bind Trace.ofJson? = some trace) := by
  refine ⟨h.ofJson?_toJson, trace.ofJson?_toJson, fun hwords => ?_, fun hwords => ?_⟩
  · rw [Json.parse?_render hwords.isPlain_toJson, Option.bind_some, h.ofJson?_toJson]
  · rw [Json.parse?_render hwords.isPlain_toJson, Option.bind_some, trace.ofJson?_toJson]

/-- A bug after a decision of each kind. -/
def bugWithTrace : BugReport where
  kind := .deadlock
  message := "Op(1) waits for \"done\""
  trace := .ofList [.operation ⟨0⟩, .boolean true, .integer 3]
  scheduledSteps := 1
  iteration := 1
  strategy := "DFS"

/-- A report of a completed iteration and of one with a bug. -/
def ofTwoIterations : Report where
  strategy := "DFS"
  bugs := [bugWithTrace]
  fair := ⟨2, 1, 4, 5⟩
  coverage := ⟨3, 1, 3, 4⟩
  iterations := [
    ⟨0, .completed, 4, true, ⟨0, 250⟩⟩,
    ⟨1, .bugFound .deadlock, 1, true, ⟨1, 999999999⟩⟩]
  elapsed := ⟨2, 5⟩

/-- A report with a bug and its trace are read back. -/
theorem readsBack_ofTwoIterations :
    ofTwoIterations.HasProperSpans ∧ ofJson? ofTwoIterations.toJson = some ofTwoIterations ∧
      Trace.ofJson? bugWithTrace.trace.toJson = some bugWithTrace.trace ∧
      ofTwoIterations.FitsWords ∧
      (Json.parse? ofTwoIterations.toJson.render).bind ofJson? = some ofTwoIterations := by
  have hrows : ∀ row ∈ ofTwoIterations.iterations, row.FitsWords := by
    simp only [ofTwoIterations, List.forall_mem_cons]
    exact ⟨⟨by decide, by decide, by decide, by decide⟩, ⟨by decide, by decide, by decide, by decide⟩,
      fun _ hrow => absurd hrow List.not_mem_nil⟩
  have helapsed : ofTwoIterations.elapsed.IsProper := ⟨by decide, by decide⟩
  have hbugs : ∀ bug ∈ ofTwoIterations.bugs, bug.FitsWords := by
    simp only [ofTwoIterations, List.forall_mem_singleton]
    refine ⟨?_, by decide, by decide⟩
    simp [Trace.FitsWords, bugWithTrace, Decision.FitsWords]
  have hwords : ofTwoIterations.FitsWords :=
    ⟨hbugs, ⟨by decide, by decide, by decide, by decide⟩, ⟨by decide, by decide, by decide, by decide⟩,
      by decide, ⟨by decide, by decide, by decide, by decide⟩, hrows, helapsed⟩
  have hspans : ofTwoIterations.HasProperSpans := ⟨helapsed, fun row hrow => (hrows row hrow).duration⟩
  obtain ⟨hdata, htrace, htext, -⟩ := readsBack_of_hasProperSpans hspans bugWithTrace.trace
  exact ⟨hspans, hdata, htrace, hwords, htext hwords⟩

end Report

end ScheduleExplorer
