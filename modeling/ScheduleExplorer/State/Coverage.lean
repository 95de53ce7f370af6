import ScheduleExplorer.State.Level
import Std.Data.TreeMap.Lemmas
import Std.Data.TreeSet.Basic

/-!
# Visited states

How many different states a run has seen at each abstraction level, and how often a state has been
visited.
-/

namespace ScheduleExplorer

/-- The different states seen at each abstraction level. -/
structure Coverage where
  default : Std.TreeSet UInt64 := ∅
  inboxOnly : Std.TreeSet UInt64 := ∅
  custom : Std.TreeSet UInt64 := ∅
  full : Std.TreeSet UInt64 := ∅
deriving Inhabited

/-- The number of different states seen at each abstraction level. -/
structure CoverageCounts where
  default : Nat := 0
  inboxOnly : Nat := 0
  custom : Nat := 0
  full : Nat := 0
deriving DecidableEq, Inhabited

namespace Coverage

/-- Adds a state at every level. -/
def record (hashes : StateHashes) (coverage : Coverage) : Coverage where
  default := coverage.default.insert hashes.default
  inboxOnly := coverage.inboxOnly.insert hashes.inboxOnly
  custom := coverage.custom.insert hashes.custom
  full := coverage.full.insert hashes.full

/-- The numbers of different states. -/
def counts (coverage : Coverage) : CoverageCounts where
  default := coverage.default.size
  inboxOnly := coverage.inboxOnly.size
  custom := coverage.custom.size
  full := coverage.full.size

/-- Whether no state has been seen. -/
def isEmpty (coverage : Coverage) : Bool :=
  coverage.default.isEmpty

end Coverage

/-- How often each state has been visited. -/
structure VisitCounts where
  visits : Std.TreeMap UInt64 Nat := ∅
deriving Inhabited

namespace VisitCounts

/-- The number of visits to a state. -/
def frequency (state : UInt64) (counts : VisitCounts) : Nat :=
  counts.visits.getD state 0

/-- Adds a visit to a state. -/
def record (state : UInt64) (counts : VisitCounts) : VisitCounts :=
  ⟨counts.visits.insert state (counts.frequency state + 1)⟩

/-- A visit counts for its own state alone. -/
theorem frequency_record (state other : UInt64) (counts : VisitCounts) :
    (counts.record state).frequency other =
      counts.frequency other + if state = other then 1 else 0 := by
  by_cases h : state = other <;>
    simp [frequency, record, Std.TreeMap.getD_insert, h]

/-- The number of different states visited. -/
def uniqueStates (counts : VisitCounts) : Nat :=
  counts.visits.size

end VisitCounts

end ScheduleExplorer
