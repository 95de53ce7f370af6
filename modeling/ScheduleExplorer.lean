import ScheduleExplorer.Campaign
import ScheduleExplorer.Config
import ScheduleExplorer.Decimal.Binary64
import ScheduleExplorer.Decimal.Fixed
import ScheduleExplorer.Decimal.Shortest
import ScheduleExplorer.Dpor.Frame
import ScheduleExplorer.Dpor.OpSet
import ScheduleExplorer.Dpor.PendingStep
import ScheduleExplorer.Dpor.Race
import ScheduleExplorer.Dpor.Search
import ScheduleExplorer.Dpor.VectorClock
import ScheduleExplorer.Dpor.Word
import ScheduleExplorer.Execution
import ScheduleExplorer.Fault
import ScheduleExplorer.Fingerprint
import ScheduleExplorer.Iteration
import ScheduleExplorer.Json
import ScheduleExplorer.Json.Canonical
import ScheduleExplorer.Json.Number
import ScheduleExplorer.Json.Parser
import ScheduleExplorer.Json.Printer
import ScheduleExplorer.Message
import ScheduleExplorer.Monitor
import ScheduleExplorer.Odometer
import ScheduleExplorer.Operation
import ScheduleExplorer.Operation.Id
import ScheduleExplorer.Operation.Kind
import ScheduleExplorer.Outcome
import ScheduleExplorer.Program
import ScheduleExplorer.Proofs.Dpor.Causality
import ScheduleExplorer.Proofs.Dpor.Clock
import ScheduleExplorer.Proofs.Dpor.FiniteSets
import ScheduleExplorer.Proofs.Dpor.Marks
import ScheduleExplorer.Proofs.Dpor.Positions
import ScheduleExplorer.Proofs.Dpor.Races
import ScheduleExplorer.Proofs.Dpor.Semilattice
import ScheduleExplorer.Proofs.Execution.Asking
import ScheduleExplorer.Proofs.Execution.Blocking
import ScheduleExplorer.Proofs.Execution.Calls
import ScheduleExplorer.Proofs.Execution.Commutation
import ScheduleExplorer.Proofs.Execution.Deadlock
import ScheduleExplorer.Proofs.Execution.Deeds
import ScheduleExplorer.Proofs.Execution.Diamond
import ScheduleExplorer.Proofs.Execution.Driven
import ScheduleExplorer.Proofs.Execution.Driver
import ScheduleExplorer.Proofs.Execution.Effects
import ScheduleExplorer.Proofs.Execution.Endings
import ScheduleExplorer.Proofs.Execution.Frames
import ScheduleExplorer.Proofs.Execution.Handoffs
import ScheduleExplorer.Proofs.Execution.Independence
import ScheduleExplorer.Proofs.Execution.Interchange
import ScheduleExplorer.Proofs.Execution.Journal
import ScheduleExplorer.Proofs.Execution.Letters
import ScheduleExplorer.Proofs.Execution.Mailboxes
import ScheduleExplorer.Proofs.Execution.Orderly
import ScheduleExplorer.Proofs.Execution.Outlook
import ScheduleExplorer.Proofs.Execution.Plays
import ScheduleExplorer.Proofs.Execution.Receipts
import ScheduleExplorer.Proofs.Execution.Recorded
import ScheduleExplorer.Proofs.Execution.Runs
import ScheduleExplorer.Proofs.Execution.Scheduling
import ScheduleExplorer.Proofs.Execution.Serialization
import ScheduleExplorer.Proofs.Execution.SettledSteps
import ScheduleExplorer.Proofs.Execution.Slot
import ScheduleExplorer.Proofs.Execution.Stamps
import ScheduleExplorer.Proofs.Execution.Temperatures
import ScheduleExplorer.Proofs.Execution.Turn
import ScheduleExplorer.Proofs.Execution.Unfair
import ScheduleExplorer.Proofs.Execution.Views
import ScheduleExplorer.Proofs.Execution.Waiting
import ScheduleExplorer.Proofs.Exploration.Behaviour
import ScheduleExplorer.Proofs.Exploration.Campaigns
import ScheduleExplorer.Proofs.Exploration.Completeness
import ScheduleExplorer.Proofs.Exploration.DecisionTree
import ScheduleExplorer.Proofs.Exploration.DepthFirst
import ScheduleExplorer.Proofs.Exploration.Exhaustion
import ScheduleExplorer.Proofs.Exploration.Labels
import ScheduleExplorer.Proofs.Exploration.Nesting
import ScheduleExplorer.Proofs.Exploration.PartialOrder
import ScheduleExplorer.Proofs.Exploration.Position
import ScheduleExplorer.Proofs.Exploration.Records
import ScheduleExplorer.Proofs.Exploration.Reduction
import ScheduleExplorer.Proofs.Exploration.Reversals
import ScheduleExplorer.Proofs.Exploration.Rounds
import ScheduleExplorer.Proofs.Exploration.Searching
import ScheduleExplorer.Proofs.Exploration.SleepSets
import ScheduleExplorer.Proofs.Exploration.Stacks
import ScheduleExplorer.Proofs.Exploration.Survey
import ScheduleExplorer.Proofs.Exploration.Trail
import ScheduleExplorer.Proofs.Exploration.Unfolding
import ScheduleExplorer.Proofs.Grammar
import ScheduleExplorer.Proofs.Json.RoundTrip
import ScheduleExplorer.Proofs.Monitors
import ScheduleExplorer.Proofs.Operations
import ScheduleExplorer.Proofs.Random.Alike
import ScheduleExplorer.Proofs.Random.Lawful
import ScheduleExplorer.Proofs.Random.Mixing
import ScheduleExplorer.Proofs.Replay.Bounds
import ScheduleExplorer.Proofs.Replay.Campaigns
import ScheduleExplorer.Proofs.Replay.Divergence
import ScheduleExplorer.Proofs.Replay.Fidelity
import ScheduleExplorer.Proofs.Replay.Lockstep
import ScheduleExplorer.Proofs.Replay.Recording
import ScheduleExplorer.Proofs.Replay.Simulation
import ScheduleExplorer.Proofs.Replay.Twin
import ScheduleExplorer.Proofs.Reports
import ScheduleExplorer.Proofs.Reports.Data
import ScheduleExplorer.Proofs.Selections
import ScheduleExplorer.Proofs.State.Codes
import ScheduleExplorer.Proofs.State.Fingerprints
import ScheduleExplorer.Proofs.Strategy.Answers
import ScheduleExplorer.Proofs.Strategy.Compositions
import ScheduleExplorer.Proofs.Strategy.Contract
import ScheduleExplorer.Proofs.Strategy.Delays
import ScheduleExplorer.Proofs.Strategy.Faults
import ScheduleExplorer.Proofs.Strategy.Forgetting
import ScheduleExplorer.Proofs.Strategy.Handoffs
import ScheduleExplorer.Proofs.Strategy.HotSpans
import ScheduleExplorer.Proofs.Strategy.Learning
import ScheduleExplorer.Proofs.Strategy.Novelties
import ScheduleExplorer.Proofs.Strategy.Points
import ScheduleExplorer.Proofs.Strategy.Priorities
import ScheduleExplorer.Proofs.Strategy.Promises
import ScheduleExplorer.Proofs.Strategy.Sampling
import ScheduleExplorer.Proofs.Strategy.Searches
import ScheduleExplorer.Proofs.Strategy.Seeds
import ScheduleExplorer.Proofs.Strategy.Stagnation
import ScheduleExplorer.Proofs.Strategy.Temperatures
import ScheduleExplorer.Proofs.Strategy.Walks
import ScheduleExplorer.Proofs.Strategy.Watching
import ScheduleExplorer.Proofs.Text
import ScheduleExplorer.Proofs.Validation
import ScheduleExplorer.Random.ChaCha
import ScheduleExplorer.Random.Seed
import ScheduleExplorer.Random.Source
import ScheduleExplorer.Random.Tape
import ScheduleExplorer.Report
import ScheduleExplorer.Script
import ScheduleExplorer.Script.Expr
import ScheduleExplorer.Script.Instruction
import ScheduleExplorer.Selection
import ScheduleExplorer.State.Coverage
import ScheduleExplorer.State.Level
import ScheduleExplorer.State.Snapshot
import ScheduleExplorer.Strategy
import ScheduleExplorer.Strategy.Action
import ScheduleExplorer.Strategy.Bound
import ScheduleExplorer.Strategy.DelayBounding
import ScheduleExplorer.Strategy.DepthFirst
import ScheduleExplorer.Strategy.Novelty
import ScheduleExplorer.Strategy.Points
import ScheduleExplorer.Strategy.Priority
import ScheduleExplorer.Strategy.QLearning
import ScheduleExplorer.Strategy.RandomWalk
import ScheduleExplorer.Strategy.Replay
import ScheduleExplorer.Text.Blank
import ScheduleExplorer.Text.Natural
import ScheduleExplorer.Trace
