/-!
# Identifiers

Operations, resources and monitors are numbered from zero in the order of their registration; event
types are words chosen by the program.
-/

namespace ScheduleExplorer

/-- The number of an operation. -/
structure OperationId where
  index : Nat
deriving DecidableEq, Inhabited

/-- The number of a resource. -/
structure ResourceId where
  index : Nat
deriving DecidableEq, Inhabited

/-- The type of a message. -/
structure EventType where
  code : UInt64
deriving DecidableEq, Inhabited

/-- The number of a liveness monitor. -/
structure MonitorId where
  index : Nat
deriving DecidableEq, Inhabited

instance : ToString OperationId where
  toString id := s!"Op({id.index})"

instance : ToString ResourceId where
  toString id := s!"Resource({id.index})"

instance : ToString EventType where
  toString event := s!"Event({event.code})"

instance : ToString MonitorId where
  toString id := s!"Monitor({id.index})"

end ScheduleExplorer
