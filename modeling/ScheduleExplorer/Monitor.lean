import ScheduleExplorer.Operation.Id

/-!
# Liveness monitors

A monitor is hot while an obligation of the program is pending and cold once it is met. The
temperature of a hot monitor rises with every decision that is checked; a temperature above the
threshold, or a monitor that is hot when a fair execution ends, is a violation. The registry keeps
the first violation of an iteration.
-/

namespace ScheduleExplorer

/-- A liveness monitor. -/
structure Monitor where
  name : String
  isHot : Bool := false
  temperature : Nat := 0
deriving DecidableEq, Inhabited

namespace Monitor

/-- An obligation is pending. -/
def heat (monitor : Monitor) : Monitor :=
  { monitor with isHot := true }

/-- The obligation is met. -/
def cool (monitor : Monitor) : Monitor :=
  { monitor with isHot := false, temperature := 0 }

/-- One more decision has been taken. -/
def warm (monitor : Monitor) : Monitor :=
  if monitor.isHot then { monitor with temperature := monitor.temperature + 1 } else monitor

end Monitor

/-- How a liveness property was violated. -/
inductive LivenessViolation where
  | temperatureExceeded (monitor : MonitorId) (name : String) (temperature threshold : Nat)
  | hotAtBound (monitor : MonitorId) (name : String)
deriving DecidableEq, Inhabited

namespace LivenessViolation

/-- The monitor concerned. -/
def monitor : LivenessViolation → MonitorId
  | temperatureExceeded monitor .. => monitor
  | hotAtBound monitor _ => monitor

/-- The wording of a violation. -/
def message : LivenessViolation → String
  | temperatureExceeded _ name temperature threshold =>
    s!"Monitor '{name}' detected liveness bug in hot state with temperature {temperature} exceeding threshold {threshold}"
  | hotAtBound _ name =>
    s!"Monitor '{name}' detected potential liveness bug in hot state at the end of a fair execution"

end LivenessViolation

/-- The monitors of a run. -/
structure Monitors where
  monitors : List Monitor := []
  threshold : Nat := 0
  violation : Option LivenessViolation := none
  /-- How often temperatures have been checked. -/
  checks : Nat := 0
deriving DecidableEq, Inhabited

namespace Monitors

/-- Adds a cold monitor; its number is the number of monitors before it. -/
def register (name : String) (registry : Monitors) : MonitorId × Monitors :=
  (⟨registry.monitors.length⟩, { registry with monitors := registry.monitors ++ [{ name }] })

/-- A registry of cold monitors. -/
def ofNames (threshold : Nat) (names : List String) : Monitors :=
  { threshold, monitors := names.map fun name => { name } }

/-- The monitor with a number. -/
def get? (id : MonitorId) (registry : Monitors) : Option Monitor :=
  registry.monitors[id.index]?

/-- Whether a number belongs to a monitor. -/
def isKnown (id : MonitorId) (registry : Monitors) : Bool :=
  id.index < registry.monitors.length

/-- Makes a monitor hot or cold; an unknown number changes nothing. -/
def set (id : MonitorId) (isHot : Bool) (registry : Monitors) : Monitors :=
  { registry with
    monitors := registry.monitors.modify id.index fun monitor =>
      if isHot then monitor.heat else monitor.cool }

/-- Whether some monitor is hot. -/
def anyHot (registry : Monitors) : Bool :=
  registry.monitors.any (·.isHot)

/-- The first monitor with a property, with its number. -/
def findFrom? (p : Monitor → Bool) : Nat → List Monitor → Option (MonitorId × Monitor)
  | _, [] => none
  | index, monitor :: rest =>
    if p monitor then some (⟨index⟩, monitor) else findFrom? p (index + 1) rest

/-- Raises the temperature of every hot monitor, and records the first one above the threshold.
After a violation nothing is raised. -/
def checkTemperature (registry : Monitors) : Monitors :=
  let registry := { registry with checks := registry.checks + 1 }
  match registry.violation with
  | some _ => registry
  | none =>
    let monitors := registry.monitors.map Monitor.warm
    let tooHot (monitor : Monitor) : Bool :=
      monitor.isHot && registry.threshold < monitor.temperature
    { registry with
      monitors
      violation := (findFrom? tooHot 0 monitors).map fun (id, monitor) =>
        .temperatureExceeded id monitor.name monitor.temperature registry.threshold }

/-- Records the first hot monitor at the end of a fair execution. -/
def checkAtBound (registry : Monitors) : Monitors :=
  match registry.violation with
  | some _ => registry
  | none =>
    { registry with
      violation := (findFrom? (·.isHot) 0 registry.monitors).map fun (id, monitor) =>
        .hotAtBound id monitor.name }

/-- Cools every monitor and forgets the violation; the count of checks goes on. -/
def resetForIteration (registry : Monitors) : Monitors :=
  { registry with monitors := registry.monitors.map Monitor.cool, violation := none }

end Monitors

end ScheduleExplorer
