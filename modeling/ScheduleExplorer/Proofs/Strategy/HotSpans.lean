import ScheduleExplorer.Proofs.Strategy.Watching
import Mathlib.Data.List.DropRight

/-!
# Temperatures and hot spans

A monitor that has turned hot stays hot until it is made cold or the monitors are reset; making it hot
once more changes nothing. Its temperature is how many decisions have been requested meanwhile. So it
can be read off the history: cut off what came before the monitor was cold for the last time, begin
where it is made hot, and count the requests.

The first request with which the count of some monitor exceeds the threshold is the one that finds a
violation. From then on the strategy inside is not asked any more until the monitors are reset.
-/

namespace ScheduleExplorer

/-! ### Histories -/

/-- What happens to a watching strategy and to its monitors. -/
inductive WatchEvent where
  | set (id : MonitorId) (isHot : Bool)
  | request (current : Operation) (query : Query)
  | resetMonitors
  | prepare
  | reset
  | notifyBug
  | takeFault

namespace WatchEvent

/-- Whether a monitor is cold after an event, whatever it was before. -/
def cools (id : MonitorId) : WatchEvent → Bool
  | set other isHot => other = id && !isHot
  | resetMonitors => true
  | _ => false

/-- Whether an event makes a monitor hot. -/
def heats (id : MonitorId) : WatchEvent → Bool
  | set other isHot => other = id && isHot
  | _ => false

/-- Whether a decision is requested. -/
def isRequest : WatchEvent → Bool
  | request .. => true
  | _ => false

/-- The events since a monitor has turned from cold to hot: after the last one that made it cold, those
from the first one on that made it hot. -/
def hotSpan (id : MonitorId) (events : List WatchEvent) : List WatchEvent :=
  (events.rtakeWhile fun event => !event.cools id).dropWhile fun event => !event.heats id

/-- The number of decisions requested since a monitor has turned from cold to hot. -/
def requestsWhileHot (id : MonitorId) (events : List WatchEvent) : Nat :=
  (hotSpan id events).countP isRequest

variable {id : MonitorId} {events : List WatchEvent} {event : WatchEvent}

/-- A monitor that is made cold has no hot span. -/
theorem hotSpan_of_cools (h : event.cools id = true) : hotSpan id (events ++ [event]) = [] := by
  simp [hotSpan, h]

/-- Any other event belongs to the hot span if there is one, or begins it if it makes the monitor
hot. -/
theorem hotSpan_concat (h : event.cools id = false) :
    hotSpan id (events ++ [event]) =
      if hotSpan id events = [] then (if event.heats id then [event] else [])
      else hotSpan id events ++ [event] := by
  simp only [hotSpan, List.rtakeWhile_concat, h, Bool.not_false, if_true, List.dropWhile_append,
    List.isEmpty_iff]
  cases hheats : event.heats id <;> simp [hheats]

/-- An event that is no request leaves the count alone unless it makes the monitor cold. -/
theorem requestsWhileHot_skip (hcools : event.cools id = false) (hrequest : event.isRequest = false) :
    requestsWhileHot id (events ++ [event]) = requestsWhileHot id events := by
  rw [requestsWhileHot, requestsWhileHot, hotSpan_concat hcools]
  split
  · next hspan =>
    rw [hspan]
    split <;> simp [hrequest]
  · simp [hrequest]

/-- No request makes a monitor hot or cold. -/
theorem not_cools_of_isRequest (h : event.isRequest = true) (id : MonitorId) :
    event.cools id = false ∧ event.heats id = false := by
  cases event with
  | request => exact ⟨rfl, rfl⟩
  | _ => cases h

/-- A request goes on with a hot span, and begins none. -/
theorem hotSpan_request (h : event.isRequest = true) :
    hotSpan id (events ++ [event]) =
      if hotSpan id events = [] then [] else hotSpan id events ++ [event] := by
  obtain ⟨hcools, hheats⟩ := not_cools_of_isRequest h id
  rw [hotSpan_concat hcools, hheats, if_neg Bool.false_ne_true]

/-- A request counts for the monitors that are hot. -/
theorem requestsWhileHot_request (h : event.isRequest = true) :
    requestsWhileHot id (events ++ [event]) =
      if hotSpan id events = [] then 0 else requestsWhileHot id events + 1 := by
  rw [requestsWhileHot, requestsWhileHot, hotSpan_request h]
  split
  · rfl
  · simp [h]

end WatchEvent

open WatchEvent

/-! ### A monitor and its history -/

/-- A monitor is hot and has the temperature that the history tells. -/
structure Monitor.Agrees (events : List WatchEvent) (id : MonitorId) (monitor : Monitor) : Prop where
  hot : monitor.isHot = true ↔ hotSpan id events ≠ []
  temperature : monitor.temperature = requestsWhileHot id events

namespace Monitor

variable {events : List WatchEvent} {event : WatchEvent} {id : MonitorId} {monitor : Monitor}

/-- A cold monitor agrees with every history that has no hot span for it. -/
theorem agrees_cool (monitor : Monitor) (h : hotSpan id events = []) :
    monitor.cool.Agrees events id := by
  constructor <;> simp [cool, requestsWhileHot, h]

/-- Making a monitor hot begins its hot span, or goes on with it. -/
theorem Agrees.heat (hagrees : monitor.Agrees events id) (h : event.heats id = true) :
    monitor.heat.Agrees (events ++ [event]) id := by
  have hother : event.cools id = false ∧ event.isRequest = false := by
    cases event with
    | set other isHot => simp_all [heats, cools, isRequest]
    | _ => cases h
  constructor
  · rw [hotSpan_concat hother.1]
    split <;> simp [Monitor.heat]
  · rw [requestsWhileHot_skip hother.1 hother.2]
    exact hagrees.temperature

/-- Where nothing is requested and the monitor is left alone, it agrees as before. -/
theorem Agrees.skip (hagrees : monitor.Agrees events id) (hcools : event.cools id = false)
    (hheats : event.heats id = false) (hrequest : event.isRequest = false) :
    monitor.Agrees (events ++ [event]) id := by
  constructor
  · rw [hagrees.hot, hotSpan_concat hcools, hheats]
    split
    · next hspan => simp [hspan]
    · next hspan => simp [hspan]
  · rw [requestsWhileHot_skip hcools hrequest]
    exact hagrees.temperature

/-- A request makes a hot monitor warmer, and lengthens its hot span. -/
theorem Agrees.warm (hagrees : monitor.Agrees events id) (hrequest : event.isRequest = true) :
    monitor.warm.Agrees (events ++ [event]) id := by
  constructor
  · have hsame : monitor.warm.isHot = monitor.isHot := by
      rw [Monitor.warm]
      split <;> rfl
    rw [hsame, hagrees.hot, hotSpan_request hrequest]
    split
    · next hspan => simp [hspan]
    · next hspan => simp [hspan]
  · rw [requestsWhileHot_request hrequest, Monitor.warm]
    by_cases hspan : hotSpan id events = []
    · have hcold : ¬ monitor.isHot = true := fun hhot => hagrees.hot.mp hhot hspan
      rw [if_neg hcold, if_pos hspan, hagrees.temperature, requestsWhileHot, hspan]
      rfl
    · rw [if_pos (hagrees.hot.mpr hspan), if_neg hspan, hagrees.temperature]

/-- Whether a monitor is hot and its temperature too high. -/
def exceeds (threshold : Nat) (monitor : Monitor) : Bool :=
  monitor.isHot && threshold < monitor.temperature

/-- A monitor exceeds the threshold with its count of requests: a cold one has none. -/
theorem Agrees.exceeds_iff (hagrees : monitor.Agrees events id) (threshold : Nat) :
    monitor.exceeds threshold = true ↔ threshold < requestsWhileHot id events := by
  rw [exceeds, Bool.and_eq_true, decide_eq_true_eq, hagrees.temperature, hagrees.hot]
  constructor
  · rintro ⟨-, habove⟩
    exact habove
  · intro habove
    refine ⟨fun hspan => ?_, habove⟩
    simp [requestsWhileHot, hspan] at habove

end Monitor

/-! ### The monitors and their history -/

namespace Monitors

variable {events : List WatchEvent} {event : WatchEvent} {monitors : Monitors}

/-- A monitor that is found has the property, and those before it have not. -/
theorem of_findFrom?_eq_some {p : Monitor → Bool} {first : Nat} {monitors : List Monitor}
    {id : MonitorId} {monitor : Monitor} (h : findFrom? p first monitors = some (id, monitor)) :
    ∃ index, id.index = first + index ∧ monitors[index]? = some monitor ∧ p monitor = true ∧
      ∀ earlier < index, ∀ other, monitors[earlier]? = some other → p other = false := by
  induction monitors generalizing first with
  | nil => cases h
  | cons head rest ih =>
    rw [findFrom?] at h
    split at h
    · next hhead =>
      cases h
      exact ⟨0, rfl, rfl, hhead, fun earlier hlt => by omega⟩
    · next hhead =>
      obtain ⟨index, hid, hget, hmonitor, hbefore⟩ := ih h
      refine ⟨index + 1, by omega, hget, hmonitor, ?_⟩
      intro earlier hlt other hother
      cases earlier with
      | zero =>
        obtain rfl := Option.some.inj hother
        exact Bool.eq_false_iff.mpr hhead
      | succ earlier => exact hbefore earlier (by omega) other hother

/-- Where no monitor is found, none has the property. -/
theorem of_findFrom?_eq_none {p : Monitor → Bool} {first : Nat} {monitors : List Monitor}
    (h : findFrom? p first monitors = none) : ∀ monitor ∈ monitors, p monitor = false := by
  induction monitors generalizing first with
  | nil => simp
  | cons head rest ih =>
    rw [findFrom?] at h
    split at h
    · cases h
    · next hhead =>
      intro monitor hmem
      rcases List.mem_cons.mp hmem with rfl | hrest
      · exact Bool.eq_false_iff.mpr hhead
      · exact ih h monitor hrest

/-- The monitors agree with a history in which no count has exceeded the threshold. -/
structure Tracks (events : List WatchEvent) (monitors : Monitors) : Prop where
  agrees : ∀ id monitor, monitors.get? id = some monitor → monitor.Agrees events id
  below : ∀ id, monitors.isKnown id = true → requestsWhileHot id events ≤ monitors.threshold

/-- The monitor with a number is the first one whose count of requests exceeds the threshold. -/
structure IsFirstAbove (events : List WatchEvent) (registry : Monitors) (id : MonitorId)
    (name : String) : Prop where
  named : (registry.get? id).map Monitor.name = some name
  above : registry.threshold < requestsWhileHot id events
  first : ∀ other, other.index < id.index → requestsWhileHot other events ≤ registry.threshold

/-- Exactly the known numbers have a monitor. -/
theorem isKnown_iff {id : MonitorId} :
    monitors.isKnown id = true ↔ ∃ monitor, monitors.get? id = some monitor := by
  simp [isKnown, get?, ← Option.isSome_iff_exists]

/-- Monitors that are reset agree with every history that has no hot span. -/
theorem tracks_resetForIteration (registry : Monitors) (h : ∀ id, hotSpan id events = []) :
    registry.resetForIteration.Tracks events := by
  constructor
  · intro id monitor hmonitor
    rw [get?, resetForIteration, List.getElem?_map, Option.map_eq_some_iff] at hmonitor
    obtain ⟨old, -, rfl⟩ := hmonitor
    exact old.agrees_cool (h id)
  · intro id _
    simp [requestsWhileHot, h id]

/-- Monitors that are left alone agree as before. -/
theorem Tracks.skip (h : monitors.Tracks events) (hcools : ∀ id, event.cools id = false)
    (hheats : ∀ id, event.heats id = false) (hrequest : event.isRequest = false) :
    monitors.Tracks (events ++ [event]) := by
  constructor
  · intro id monitor hmonitor
    exact (h.agrees id monitor hmonitor).skip (hcools id) (hheats id) hrequest
  · intro id hknown
    rw [requestsWhileHot_skip (hcools id) hrequest]
    exact h.below id hknown

/-- Making a monitor hot or cold makes no count exceed the threshold. -/
theorem Tracks.set (h : monitors.Tracks events) (id : MonitorId) (isHot : Bool) :
    (monitors.set id isHot).Tracks (events ++ [.set id isHot]) := by
  constructor
  · intro other monitor hmonitor
    simp only [get?, Monitors.set, List.getElem?_modify, Option.map_eq_map,
      Option.map_eq_some_iff] at hmonitor
    obtain ⟨old, hold, rfl⟩ := hmonitor
    have hagrees := h.agrees other old hold
    by_cases hsame : id = other
    · subst hsame
      cases isHot with
      | true =>
        have hheats : (WatchEvent.set id true).heats id = true := by simp [heats]
        simpa using hagrees.heat hheats
      | false =>
        have hcools : (WatchEvent.set id false).cools id = true := by simp [cools]
        have hspan : hotSpan id (events ++ [.set id false]) = [] := hotSpan_of_cools hcools
        simpa using old.agrees_cool hspan
    · have hindex : ¬ id.index = other.index := by
        intro hindex
        cases id
        cases other
        exact hsame (congrArg MonitorId.mk hindex)
      rw [if_neg hindex]
      exact hagrees.skip (by simp [cools, hsame]) (by simp [heats, hsame]) rfl
  · intro other hknown
    rw [isKnown, Monitors.set, List.length_modify, ← isKnown] at hknown
    have hbelow := h.below other hknown
    by_cases hcools : (WatchEvent.set id isHot).cools other = true
    · simp [requestsWhileHot, hotSpan_of_cools hcools]
    · rwa [requestsWhileHot_skip (Bool.eq_false_iff.mpr hcools) rfl]

/-- The check at a request warms every monitor, and looks for one above the threshold. -/
theorem checkTemperature_eq (hclean : monitors.violation = none) :
    monitors.checkTemperature = { monitors with
      checks := monitors.checks + 1
      monitors := monitors.monitors.map Monitor.warm
      violation := (findFrom? (·.exceeds monitors.threshold) 0
        (monitors.monitors.map Monitor.warm)).map fun (id, monitor) =>
          .temperatureExceeded id monitor.name monitor.temperature monitors.threshold } := by
  rw [Monitors.checkTemperature, hclean]
  rfl

section Check

variable (h : monitors.Tracks events) (hrequest : event.isRequest = true)
include h hrequest

/-- A request makes the monitors agree with the history that it ends. -/
theorem Tracks.agrees_warm {id : MonitorId} {monitor : Monitor}
    (hget : (monitors.monitors.map Monitor.warm)[id.index]? = some monitor) :
    monitor.Agrees (events ++ [event]) id := by
  rw [List.getElem?_map, Option.map_eq_some_iff] at hget
  obtain ⟨old, hold, rfl⟩ := hget
  exact (h.agrees id old hold).warm hrequest

/-- A request makes no count exceed the threshold by more than one. -/
theorem Tracks.le_succ {id : MonitorId} (hknown : monitors.isKnown id = true) :
    requestsWhileHot id (events ++ [event]) ≤ monitors.threshold + 1 := by
  have hbelow := h.below id hknown
  rw [requestsWhileHot_request hrequest]
  split <;> omega

/-- Where no warmed monitor exceeds the threshold, no count does. -/
theorem Tracks.not_above {id : MonitorId} (hknown : monitors.isKnown id = true)
    (hnot : ∀ monitor, (monitors.monitors.map Monitor.warm)[id.index]? = some monitor →
      monitor.exceeds monitors.threshold = false) :
    requestsWhileHot id (events ++ [event]) ≤ monitors.threshold := by
  obtain ⟨old, hold⟩ := isKnown_iff.mp hknown
  have hget : (monitors.monitors.map Monitor.warm)[id.index]? = some old.warm := by
    rw [get?] at hold
    rw [List.getElem?_map, hold, Option.map_some]
  have hexceeds := (h.agrees_warm hrequest hget).exceeds_iff monitors.threshold
  rw [hnot _ hget] at hexceeds
  simpa using hexceeds

/-- A check at a request finds the first monitor whose count exceeds the threshold by that request, at
one above the threshold. If there is none it finds nothing, and the monitors agree with the history. -/
theorem Tracks.checkTemperature (hclean : monitors.violation = none) :
    (monitors.checkTemperature.violation = none ∧
        monitors.checkTemperature.Tracks (events ++ [event])) ∨
      ∃ id name, monitors.IsFirstAbove (events ++ [event]) id name ∧
        monitors.checkTemperature.violation =
          some (.temperatureExceeded id name (monitors.threshold + 1) monitors.threshold) := by
  rw [checkTemperature_eq hclean]
  cases hfound : findFrom? (·.exceeds monitors.threshold) 0 (monitors.monitors.map Monitor.warm) with
  | none =>
    refine .inl ⟨rfl, fun id monitor hget => h.agrees_warm hrequest hget, ?_⟩
    intro id hknown
    rw [isKnown, List.length_map, ← isKnown] at hknown
    apply h.not_above hrequest hknown
    intro monitor hget
    exact of_findFrom?_eq_none hfound monitor (List.mem_of_getElem? hget)
  | some found =>
    obtain ⟨id, monitor⟩ := found
    obtain ⟨index, hid, hget, hexceeds, hbefore⟩ := of_findFrom?_eq_some hfound
    rw [Nat.zero_add] at hid
    rw [← hid] at hget hbefore
    have hagrees := h.agrees_warm hrequest hget
    have habove := (hagrees.exceeds_iff _).mp hexceeds
    rw [List.getElem?_map, Option.map_eq_some_iff] at hget
    obtain ⟨old, hold, rfl⟩ := hget
    have hknown := isKnown_iff.mpr ⟨old, hold⟩
    have hcount : requestsWhileHot id (events ++ [event]) = monitors.threshold + 1 := by
      have hle := h.le_succ hrequest hknown
      omega
    refine .inr ⟨id, old.warm.name, ⟨?_, habove, ?_⟩, ?_⟩
    · rw [get?, hold, Option.map_some, Monitor.warm]
      split <;> rfl
    · intro other hlt
      have hother : monitors.isKnown other = true := by
        rw [isKnown, decide_eq_true_eq] at hknown ⊢
        omega
      exact h.not_above hrequest hother (hbefore other.index hlt)
    · simp only [Option.map_some]
      rw [hagrees.temperature, hcount]

end Check

end Monitors

end ScheduleExplorer
