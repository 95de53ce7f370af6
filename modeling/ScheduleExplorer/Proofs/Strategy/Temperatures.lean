import ScheduleExplorer.Proofs.Strategy.HotSpans

/-!
# Watching measures hot spans

A fair strategy that watches the monitors at the outside raises the temperatures at every request, so
they are the lengths of the hot spans, as long as no violation is recorded. One is recorded by the first
request with which the count of some monitor exceeds the threshold, and by nothing else. That request
and all that follow are not answered and leave the strategy alone, until the monitors are reset.
-/

namespace ScheduleExplorer

open WatchEvent

variable {γ : Type}

/-! ### Shapes that are kept -/

namespace Monitors

variable {monitors other : Monitors}

/-- Registries that are the same at rest know the same numbers. -/
theorem SameAtRest.isKnown_eq (h : monitors.SameAtRest other) (id : MonitorId) :
    monitors.isKnown id = other.isKnown id := by
  have hlength := congrArg List.length h.cooled
  rw [List.length_map, List.length_map] at hlength
  rw [isKnown, isKnown, hlength]

/-- Registries that are the same at rest have the same names for them. -/
theorem SameAtRest.name_eq (h : monitors.SameAtRest other) (id : MonitorId) :
    (monitors.get? id).map Monitor.name = (other.get? id).map Monitor.name := by
  have hname (registry : Monitors) : (registry.get? id).map Monitor.name =
      (registry.monitors.map Monitor.cool)[id.index]?.map Monitor.name := by
    rw [List.getElem?_map, Option.map_map, get?]
    rfl
  rw [hname, hname, h.cooled]

/-- Which monitor is the first above the threshold depends on the registry at rest only. -/
theorem IsFirstAbove.of_sameAtRest {events : List WatchEvent} {id : MonitorId} {name : String}
    (h : monitors.IsFirstAbove events id name) (hrest : monitors.SameAtRest other) :
    other.IsFirstAbove events id name := by
  refine ⟨(hrest.name_eq id).symm.trans h.named, ?_, ?_⟩
  · rw [← hrest.threshold]
    exact h.above
  · rw [← hrest.threshold]
    exact h.first

/-- The first monitor above the threshold is known. -/
theorem IsFirstAbove.isKnown {events : List WatchEvent} {id : MonitorId} {name : String}
    (h : monitors.IsFirstAbove events id name) : monitors.isKnown id = true := by
  obtain ⟨monitor, hmonitor, -⟩ := Option.map_eq_some_iff.mp h.named
  exact isKnown_iff.mpr ⟨monitor, hmonitor⟩

/-- There is only one first monitor above the threshold. -/
theorem IsFirstAbove.unique {events : List WatchEvent} {id id' : MonitorId} {name name' : String}
    (h : monitors.IsFirstAbove events id name) (h' : monitors.IsFirstAbove events id' name') :
    id = id' ∧ name = name' := by
  have hindex : id.index = id'.index := by
    rcases Nat.lt_trichotomy id.index id'.index with hlt | heq | hgt
    · exact absurd (h'.first id hlt) (Nat.not_le.mpr h.above)
    · exact heq
    · exact absurd (h.first id' hgt) (Nat.not_le.mpr h'.above)
  obtain rfl : id = id' := by
    cases id
    exact congrArg MonitorId.mk hindex
  exact ⟨rfl, Option.some.inj (h.named.symm.trans h'.named)⟩

end Monitors

namespace Strategy

variable [RandomSource γ]

/-- Preparing keeps the kind of a strategy, whatever state the strategy is in. -/
theorem sameKind_prepare (s : Strategy γ) : s.prepare.2.SameKind s := by
  induction s with
  | combo lead rest ihLead ihRest => exact ihLead.combo ihRest
  | liveness inner ih => exact ih.liveness
  | _ => exact ⟨rfl, rfl, rfl, rfl⟩

/-- After a violation a fair strategy that watches at the outside does not answer, and nothing
changes. -/
theorem answer_of_violated {s : Strategy γ} (hdecorated : s.isDecorated = true)
    (hfair : s.isFair = true) (current : Operation) (query : Query) {monitors : Monitors}
    (hviolation : monitors.violation.isSome = true) :
    answer current query s monitors = (none, s, monitors) := by
  cases s with
  | liveness inner =>
    have hfair : inner.isFair = true := hfair
    have hnone : monitors.violation.isNone = false := by
      rw [Option.isNone_eq_false_iff]
      exact hviolation
    simp [answer, checkMonitors, isHalted, hfair, hnone, hviolation]
  | _ => cases hdecorated

end Strategy

/-! ### Watching strategies -/

/-- A strategy with the monitors that it watches. -/
structure Watch (γ : Type) where
  strategy : Strategy γ
  monitors : Monitors

namespace Watch

variable [RandomSource γ]

/-- What the strategy answers a query, and what is there then. -/
def answer (current : Operation) (query : Query) (watch : Watch γ) :
    Option query.Answer × Watch γ :=
  let answered := watch.strategy.answer current query watch.monitors
  (answered.1, ⟨answered.2.1, answered.2.2⟩)

/-- What an event leaves behind. -/
def step (watch : Watch γ) : WatchEvent → Watch γ
  | .set id isHot => { watch with monitors := watch.monitors.set id isHot }
  | .request current query => (watch.answer current query).2
  | .resetMonitors => { watch with monitors := watch.monitors.resetForIteration }
  | .prepare => { watch with strategy := watch.strategy.prepare.2 }
  | .reset => { watch with strategy := watch.strategy.reset }
  | .notifyBug => { watch with strategy := watch.strategy.notifyBug }
  | .takeFault => { watch with strategy := watch.strategy.takeFault.2 }

/-- What events leave behind. -/
def after (watch : Watch γ) (events : List WatchEvent) : Watch γ :=
  events.foldl step watch

/-- One more event. -/
theorem after_concat (watch : Watch γ) (events : List WatchEvent) (event : WatchEvent) :
    watch.after (events ++ [event]) = (watch.after events).step event := by
  rw [after, List.foldl_concat, after]

/-- A fair strategy watches the monitors at the outside; the monitors are those of a registry, and
unless a violation is recorded they agree with the history. -/
structure Follows (registry : Monitors) (events : List WatchEvent) (watch : Watch γ) : Prop where
  decorated : watch.strategy.isDecorated = true
  fair : watch.strategy.isFair = true
  atRest : watch.monitors.SameAtRest registry
  tracks : watch.monitors.violation = none → watch.monitors.Tracks events

variable {registry : Monitors} {events : List WatchEvent} {watch : Watch γ}

/-- What a request finds: no count exceeds the threshold, and the monitors go on to agree with the
history; or some count does, and then the violation is recorded and the strategy is left alone. -/
theorem Follows.request (h : watch.Follows registry events)
    (hclean : watch.monitors.violation = none) (current : Operation) (query : Query) :
    ((watch.step (.request current query)).monitors.violation = none ∧
        (watch.step (.request current query)).monitors.Tracks (events ++ [.request current query])) ∨
      ∃ id name, registry.IsFirstAbove (events ++ [.request current query]) id name ∧
        (watch.step (.request current query)).monitors.violation =
          some (.temperatureExceeded id name (registry.threshold + 1) registry.threshold) ∧
        (watch.answer current query).1 = none ∧
        (watch.step (.request current query)).strategy = watch.strategy := by
  obtain ⟨hmonitors, hhalts⟩ := Strategy.IsOutermost.answer_spec (.inr h.decorated) current query hclean
  have hchecked : watch.monitors.checkedFor watch.strategy.isDecorated watch.strategy.isFair =
      watch.monitors.checkTemperature := by
    rw [Monitors.checkedFor, h.decorated, h.fair]
    rfl
  rw [hchecked] at hmonitors hhalts
  have hstep : (watch.step (.request current query)).monitors = watch.monitors.checkTemperature :=
    hmonitors
  rw [hstep, ← h.atRest.threshold]
  have hrequest : (WatchEvent.request current query).isRequest = true := rfl
  rcases (h.tracks hclean).checkTemperature hrequest hclean with hgoesOn | ⟨id, name, hfirst, hfound⟩
  · exact .inl hgoesOn
  · have hanswer := hhalts (by rw [hfound, Option.isSome_some])
    refine .inr ⟨id, name, hfirst.of_sameAtRest h.atRest, hfound, ?_, ?_⟩
    · exact congrArg (·.1) hanswer
    · exact congrArg (·.2.1) hanswer

/-- After a violation no request is answered, and none changes anything. -/
theorem Follows.answer_of_violated (h : watch.Follows registry events)
    (hviolation : watch.monitors.violation.isSome = true) (current : Operation) (query : Query) :
    watch.answer current query = (none, watch) := by
  rw [answer, Strategy.answer_of_violated h.decorated h.fair current query hviolation]

omit [RandomSource γ] in
/-- A strategy of the same kind may take the place of the one that watches. -/
theorem Follows.of_sameKind (h : watch.Follows registry events) {strategy : Strategy γ}
    (hkind : strategy.SameKind watch.strategy) : Follows registry events { watch with strategy } :=
  ⟨hkind.isDecorated.trans h.decorated, hkind.isFair.trans h.fair, h.atRest, h.tracks⟩

omit [RandomSource γ] in
/-- What leaves the monitors alone goes on with the history. -/
theorem Follows.skip (h : watch.Follows registry events) {event : WatchEvent}
    (hcools : ∀ id, event.cools id = false) (hheats : ∀ id, event.heats id = false)
    (hrequest : event.isRequest = false) : watch.Follows registry (events ++ [event]) :=
  ⟨h.decorated, h.fair, h.atRest, fun hclean => (h.tracks hclean).skip hcools hheats hrequest⟩

/-- Every event goes on from what follows the history to what follows it. -/
theorem Follows.step (h : watch.Follows registry events) (event : WatchEvent) :
    (watch.step event).Follows registry (events ++ [event]) := by
  cases event with
  | set id isHot =>
    refine ⟨h.decorated, h.fair, ⟨h.atRest.threshold, ?_⟩, fun hclean => ?_⟩
    · exact (Monitors.map_cool_set id isHot watch.monitors).trans h.atRest.cooled
    · exact (h.tracks hclean).set id isHot
  | request current query =>
    cases hviolation : watch.monitors.violation with
    | none =>
      have hkind := watch.strategy.sameKind_answer current query watch.monitors
      have hmonitors := (Strategy.IsOutermost.answer_spec (.inr h.decorated) current query hviolation).1
      refine ⟨hkind.isDecorated.trans h.decorated, hkind.isFair.trans h.fair, ?_, fun hclean => ?_⟩
      · have hchecked := Monitors.sameAtRest_checkedFor watch.strategy.isDecorated
          watch.strategy.isFair watch.monitors
        rw [← hmonitors] at hchecked
        exact hchecked.trans h.atRest
      · rcases h.request hviolation current query with ⟨-, htracks⟩ | ⟨id, name, -, hfound, -⟩
        · exact htracks
        · cases hclean.symm.trans hfound
    | some violation =>
      have hsome : watch.monitors.violation.isSome = true := by rw [hviolation, Option.isSome_some]
      rw [Watch.step, h.answer_of_violated hsome]
      refine ⟨h.decorated, h.fair, h.atRest, fun hclean => ?_⟩
      cases hclean.symm.trans hviolation
  | resetMonitors =>
    refine ⟨h.decorated, h.fair, ?_, fun _ => ?_⟩
    · exact (Monitors.sameAtRest_resetForIteration watch.monitors).trans h.atRest
    · exact watch.monitors.tracks_resetForIteration fun id => hotSpan_of_cools rfl
  | prepare =>
    exact (h.of_sameKind watch.strategy.sameKind_prepare).skip (fun _ => rfl) (fun _ => rfl) rfl
  | reset =>
    exact (h.of_sameKind watch.strategy.restarts_reset.sameKind).skip (fun _ => rfl) (fun _ => rfl) rfl
  | notifyBug =>
    exact (h.of_sameKind watch.strategy.keeps_notifyBug.sameKind).skip (fun _ => rfl) (fun _ => rfl) rfl
  | takeFault =>
    exact (h.of_sameKind watch.strategy.keeps_takeFault.sameKind).skip (fun _ => rfl) (fun _ => rfl) rfl

/-- However many events there are after a reset of the monitors, what they leave behind follows the
history. -/
theorem follows_after (hdecorated : watch.strategy.isDecorated = true)
    (hfair : watch.strategy.isFair = true) {before : Monitors} (hrest : before.SameAtRest registry)
    (hreset : watch.monitors = before.resetForIteration) (events : List WatchEvent) :
    (watch.after events).Follows registry events := by
  induction events using List.reverseRecOn with
  | nil =>
    refine ⟨hdecorated, hfair, ?_, fun _ => ?_⟩
    · rw [after, List.foldl_nil, hreset]
      exact before.sameAtRest_resetForIteration.trans hrest
    · rw [after, List.foldl_nil, hreset]
      exact before.tracks_resetForIteration fun id => rfl
  | append_singleton events event ih =>
    rw [after_concat]
    exact ih.step event

/-- Only a reset of the monitors forgets a violation. -/
theorem Follows.violation_step (h : watch.Follows registry events)
    (hviolation : watch.monitors.violation.isSome = true) {event : WatchEvent}
    (hevent : event ≠ .resetMonitors) :
    (watch.step event).monitors.violation = watch.monitors.violation := by
  cases event with
  | request current query => rw [Watch.step, h.answer_of_violated hviolation]
  | resetMonitors => exact absurd rfl hevent
  | _ => rfl

/-- A violation is found by a request, in the first monitor whose count exceeds the threshold, at one
above the threshold. -/
theorem Follows.found (h : watch.Follows registry events) (hclean : watch.monitors.violation = none)
    {event : WatchEvent} {violation : LivenessViolation}
    (hviolation : (watch.step event).monitors.violation = some violation) :
    event.isRequest = true ∧ ∃ id name, registry.IsFirstAbove (events ++ [event]) id name ∧
      violation = .temperatureExceeded id name (registry.threshold + 1) registry.threshold := by
  cases event with
  | request current query =>
    rcases h.request hclean current query with ⟨hnone, -⟩ | ⟨id, name, hfirst, hsome, -⟩
    · cases hnone.symm.trans hviolation
    · exact ⟨rfl, id, name, hfirst, Option.some.inj (hviolation.symm.trans hsome)⟩
  | resetMonitors => cases hviolation
  | _ => cases hclean.symm.trans hviolation

/-- A request that leaves a violation behind is not answered and leaves the strategy alone. -/
theorem Follows.halted (h : watch.Follows registry events) {current : Operation} {query : Query}
    (hsome : (watch.step (.request current query)).monitors.violation.isSome = true) :
    (watch.answer current query).1 = none ∧
      (watch.step (.request current query)).strategy = watch.strategy := by
  cases hviolation : watch.monitors.violation with
  | none =>
    rcases h.request hviolation current query with ⟨hnone, -⟩ | ⟨id, name, -, -, hunanswered, hsame⟩
    · rw [hnone] at hsome
      cases hsome
    · exact ⟨hunanswered, hsame⟩
  | some violation =>
    have hrecorded : watch.monitors.violation.isSome = true := by
      rw [hviolation, Option.isSome_some]
    rw [Watch.step, h.answer_of_violated hrecorded]
    exact ⟨rfl, rfl⟩

section History

variable (hfollows : ∀ events, (watch.after events).Follows registry events)
include hfollows

/-- What is recorded stays recorded until the monitors are reset. -/
theorem violation_after {violation : LivenessViolation} {earlier later : List WatchEvent}
    (hfound : (watch.after earlier).monitors.violation = some violation)
    (hlater : .resetMonitors ∉ later) :
    (watch.after (earlier ++ later)).monitors.violation = some violation := by
  induction later using List.reverseRecOn with
  | nil => rwa [List.append_nil]
  | append_singleton later event ih =>
    rw [List.mem_append, List.mem_singleton, not_or] at hlater
    have hbefore := ih hlater.1
    have hsome : (watch.after (earlier ++ later)).monitors.violation.isSome = true := by
      rw [hbefore, Option.isSome_some]
    rw [← List.append_assoc, after_concat]
    exact ((hfollows _).violation_step hsome (Ne.symm hlater.2)).trans hbefore

/-- No violation is recorded exactly if no count has exceeded the threshold since the monitors were
reset. -/
theorem unviolated_iff (hstart : watch.monitors.violation = none) (events : List WatchEvent) :
    (watch.after events).monitors.violation = none ↔
      ∀ earlier later, events = earlier ++ later → .resetMonitors ∉ later →
        ∀ id, registry.isKnown id = true → requestsWhileHot id earlier ≤ registry.threshold := by
  constructor
  · rintro hclean earlier later rfl hlater id hknown
    have hbefore : (watch.after earlier).monitors.violation = none := by
      by_contra hsome
      obtain ⟨violation, hviolation⟩ := Option.ne_none_iff_exists'.mp hsome
      cases hclean.symm.trans (violation_after hfollows hviolation hlater)
    have hrest := (hfollows earlier).atRest
    have hbelow := ((hfollows earlier).tracks hbefore).below id
    rw [hrest.isKnown_eq, hrest.threshold] at hbelow
    exact hbelow hknown
  · intro hbelow
    -- Otherwise some event has recorded the violation, and with that one a count was too high.
    induction events using List.reverseRecOn with
    | nil => exact hstart
    | append_singleton events event ih =>
      by_contra hsome
      obtain ⟨violation, hviolation⟩ := Option.ne_none_iff_exists'.mp hsome
      rw [after_concat] at hviolation
      by_cases hevent : event = .resetMonitors
      · subst hevent
        cases hviolation
      · have hbefore : (watch.after events).monitors.violation = none := by
          apply ih
          rintro earlier later rfl hlater
          apply hbelow earlier (later ++ [event]) (List.append_assoc ..)
          simp [hlater, Ne.symm hevent]
        obtain ⟨-, id, name, hfirst, -⟩ := (hfollows events).found hbefore hviolation
        have hle := hbelow (events ++ [event]) [] (by simp) (by simp) id hfirst.isKnown
        have habove := hfirst.above
        omega

end History

/-- A watching strategy measures the hot spans of its monitors. -/
structure MeasuresSpans (registry : Monitors) (start : Watch γ) : Prop where
  /-- As long as no violation is recorded, a monitor is hot in its hot span, and its temperature is the
  number of decisions requested there. -/
  temperature : ∀ events, (start.after events).monitors.violation = none →
    ∀ id monitor, (start.after events).monitors.get? id = some monitor → monitor.Agrees events id
  /-- No violation is recorded exactly if no count has exceeded the threshold since the monitors were
  reset. -/
  unviolated_iff : ∀ events, (start.after events).monitors.violation = none ↔
    ∀ earlier later, events = earlier ++ later → .resetMonitors ∉ later →
      ∀ id, registry.isKnown id = true → requestsWhileHot id earlier ≤ registry.threshold
  /-- A violation is found by a request, in the first monitor whose count exceeds the threshold, at one
  above the threshold. -/
  found : ∀ events event violation, (start.after events).monitors.violation = none →
    (start.after (events ++ [event])).monitors.violation = some violation →
    event.isRequest = true ∧ ∃ id name, registry.IsFirstAbove (events ++ [event]) id name ∧
      violation = .temperatureExceeded id name (registry.threshold + 1) registry.threshold
  /-- What is found stays recorded until the monitors are reset. -/
  kept : ∀ earlier later violation, (start.after earlier).monitors.violation = some violation →
    .resetMonitors ∉ later → (start.after (earlier ++ later)).monitors.violation = some violation
  /-- The request that finds a violation and those after it are not answered, and they leave the
  strategy alone. -/
  halted : ∀ events current query,
    (start.after (events ++ [.request current query])).monitors.violation.isSome = true →
    ((start.after events).answer current query).1 = none ∧
      (start.after (events ++ [.request current query])).strategy = (start.after events).strategy

/-- A fair strategy that watches the monitors at the outside measures their hot spans. -/
theorem measuresSpans (hdecorated : watch.strategy.isDecorated = true)
    (hfair : watch.strategy.isFair = true) (hreset : watch.monitors = registry.resetForIteration) :
    watch.MeasuresSpans registry := by
  have hfollows := follows_after hdecorated hfair (.refl registry) hreset
  have hstart : watch.monitors.violation = none := by rw [hreset, Monitors.resetForIteration]
  refine ⟨fun events hclean => ((hfollows events).tracks hclean).agrees,
    Watch.unviolated_iff hfollows hstart, fun events event violation hclean hviolation => ?_,
    fun earlier later violation => violation_after hfollows, fun events current query hsome => ?_⟩
  · rw [after_concat] at hviolation
    exact (hfollows events).found hclean hviolation
  · rw [after_concat] at hsome ⊢
    exact (hfollows events).halted hsome

end Watch

end ScheduleExplorer
