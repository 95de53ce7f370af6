import ScheduleExplorer.Proofs.Execution.Asking
import ScheduleExplorer.Proofs.Execution.Driven

/-!
# Handoffs within an iteration

However a program drives an iteration, the decisions that are recorded go to the parts of a
composition in turn. Every combination passes as many of its decisions to its lead as the lead may
take, and all later ones to its rest; from then on the lead stays as it is. So the bound of the whole
is the sum of the bounds of its parts, and an iteration that ends at its step bound has recorded
exactly that many decisions.

Which part has taken a decision is read off the counts: it is the one whose count of steps has
changed in the call.
-/

namespace ScheduleExplorer

variable {γ : Type} [RandomSource γ]

/-- The strategies that may begin an iteration: new ones, and those that move on or are reset after
whatever they have been used for, with no fault left pending. -/
inductive Strategy.Ready : Strategy γ → Prop where
  | new {s : Strategy γ} (h : s.IsNew) : Ready s
  | prepare {taken : Nat} {s : Strategy γ} (h : Reached taken s) (hfault : s.IsFaultless) :
      Ready s.prepare.2
  | reset {taken : Nat} {s : Strategy γ} (h : Reached taken s) (hfault : s.IsFaultless) :
      Ready s.reset

/-- A strategy that begins an iteration is on time, has taken no step and has no fault pending. -/
theorem Strategy.Ready.atStart [BoundedRandomSource γ] {s : Strategy γ} (h : s.Ready) :
    Reached 0 s ∧ s.IsOnTime ∧ s.IsFaultless := by
  cases h with
  | new h => exact ⟨.new h, h.isOnTime⟩
  | prepare h hfault =>
    obtain ⟨honTime, hfaultless⟩ := isOnTime_prepare h.counts.1
    exact ⟨h.prepare, honTime, hfaultless hfault⟩
  | @reset _ s h hfault =>
    obtain ⟨honTime, hfaultless⟩ := isOnTime_reset s
    exact ⟨h.reset, honTime, hfaultless hfault⟩

namespace Iteration

open Strategy (Place Reached)

/-! ### Where decisions go -/

/-- How many steps the part at a place has counted. -/
def stepsAt (path : List Place) (it : Iteration γ) : Option Nat :=
  (it.strategy.part? path).map Strategy.steps

/-- The decision given out in reply to a call, if the part at a place has counted it. -/
def counted (path : List Place) (it : Iteration γ) (call : Call) : List Decision :=
  if (it.perform call).2.stepsAt path = it.stepsAt path then []
  else (it.perform call).1.decision?.toList

/-- The decisions given out in reply to calls that go to the part at a place. -/
def received (path : List Place) (it : Iteration γ) : List Call → List Decision
  | [] => []
  | call :: rest => it.counted path call ++ (it.perform call).2.received path rest

section Received

variable [BoundedRandomSource γ] {it : Iteration γ} {path : List Place}

omit [BoundedRandomSource γ] in
/-- Where nothing is given out nothing is counted. -/
theorem counted_of_quiet {call : Call} (h : (it.perform call).1.decision? = none) :
    it.counted path call = [] := by
  rw [counted, h, Option.toList_none, ite_self]

omit [BoundedRandomSource γ] in
/-- After the end nothing goes anywhere. -/
theorem received_of_ended (h : it.isRunning = false) (calls : List Call) :
    it.received path calls = [] := by
  induction calls generalizing it with
  | nil => rfl
  | cons call rest ih =>
    obtain ⟨hquiet, hended, -⟩ := perform_of_ended h call
    rw [received, counted_of_quiet hquiet, ih hended, List.nil_append]

/-- From the call that ends the iteration on, nothing goes anywhere. -/
theorem received_of_ends (hit : it.Steady) (hrunning : it.isRunning = true) {call : Call}
    (hended : (it.perform call).2.isRunning = false) (rest : List Call) :
    it.received path (call :: rest) = [] := by
  have hquiet : (it.perform call).1.decision? = none := by
    have hperformed := performed hit hrunning call
    generalize it.perform call = replied at hperformed hended
    cases hperformed with
    | goesOn hstill => cases hended.symm.trans hstill
    | ends _ hquiet => exact hquiet
  rw [received, counted_of_quiet hquiet, received_of_ended hended, List.nil_append]

/-- A call after which the iteration goes on: it is still steady, and every part has counted what it
has received. -/
theorem counted_spec (hit : it.Steady) (hrunning : it.isRunning = true) {call : Call}
    (hstill : (it.perform call).2.isRunning = true) :
    (it.perform call).2.Steady ∧ ∀ path part, it.strategy.part? path = some part →
      ∃ now, (it.perform call).2.strategy.part? path = some now ∧ now.bound = part.bound ∧
        now.steps = part.steps + (it.counted path call).length := by
  have hperformed := performed hit hrunning call
  simp only [counted]
  generalize it.perform call = replied at hperformed hstill ⊢
  cases hperformed with
  | ends hended => cases hended.symm.trans hstill
  | @goesOn reply after _ hasked _ _ _ hsteady =>
    refine ⟨hsteady, fun path part hpart => ?_⟩
    obtain ⟨now, hnow, hconcerned⟩ := hasked.part hpart
    have hbefore : it.stepsAt path = some part.steps := by simp [stepsAt, hpart]
    have hafter : after.stepsAt path = some now.steps := by simp [stepsAt, hnow]
    refine ⟨now, hnow, ?_⟩
    rw [hbefore, hafter]
    rcases hconcerned with rfl | hconcerned
    · simp
    · have hsteps := hconcerned.steps_eq ((hit.onTime hrunning).part hpart)
      refine ⟨hconcerned.bound_eq, ?_⟩
      rw [hsteps]
      cases reply.decision? <;> simp

/-- The decisions that a part receives are added to its steps, and they stay within its bound. -/
theorem steps_received (hit : it.Steady) (hrunning : it.isRunning = true) {part : Strategy γ}
    (hpart : it.strategy.part? path = some part) (calls : List Call) :
    ((part.steps + (it.received path calls).length : ℕ) : ℕ∞) ≤ part.bound ∧
      ((it.after calls).isRunning = true → (it.after calls).Steady ∧
        ∃ now, (it.after calls).strategy.part? path = some now ∧ now.bound = part.bound ∧
          now.steps = part.steps + (it.received path calls).length) := by
  induction calls generalizing it part with
  | nil =>
    have honTime := (hit.onTime hrunning).part hpart
    exact ⟨honTime.steps_le_bound.1, fun _ => ⟨hit, part, hpart, rfl, rfl⟩⟩
  | cons call rest ih =>
    cases hstill : (it.perform call).2.isRunning with
    | false =>
      rw [received_of_ends hit hrunning hstill]
      have honTime := (hit.onTime hrunning).part hpart
      refine ⟨honTime.steps_le_bound.1, fun hlater => ?_⟩
      cases (after_of_ended hstill rest).1.symm.trans hlater
    | true =>
      obtain ⟨hsteady, hparts⟩ := counted_spec hit hrunning hstill
      obtain ⟨now, hnow, hbound, hsteps⟩ := hparts path part hpart
      obtain ⟨hle, hlater⟩ := ih hsteady hstill hnow
      rw [hsteps, hbound] at hle
      have hlength : part.steps + (it.received path (call :: rest)).length =
          part.steps + (it.counted path call).length +
            ((it.perform call).2.received path rest).length := by
        rw [received, List.length_append, Nat.add_assoc]
      rw [hlength]
      refine ⟨hle, fun hgoesOn => ?_⟩
      obtain ⟨hsteady, last, hlast, hlastBound, hlastSteps⟩ := hlater hgoesOn
      exact ⟨hsteady, last, hlast, hlastBound.trans hbound, hlastSteps.trans (by rw [hsteps])⟩

/-- What is given out in reply to a call is recorded, and the whole strategy counts it. -/
theorem trace_counted (hit : it.Steady) (hrunning : it.isRunning = true) (call : Call) :
    (it.perform call).2.Steady ∧
      (it.perform call).2.trace.toList = it.trace.toList ++ it.counted [] call := by
  have hperformed := performed hit hrunning call
  simp only [counted]
  generalize it.perform call = replied at hperformed ⊢
  cases hperformed with
  | ends _ hquiet _ _ htrace _ hsteady =>
    refine ⟨hsteady, ?_⟩
    rw [hquiet, htrace, Option.toList_none, ite_self, List.append_nil]
  | @goesOn reply after _ hasked _ htrace _ hsteady =>
    refine ⟨hsteady, ?_⟩
    have hsteps := hasked.steps_eq (hit.onTime hrunning)
    have hbefore : it.stepsAt [] = some it.strategy.steps := rfl
    have hafter : after.stepsAt [] = some after.strategy.steps := rfl
    rw [htrace, hbefore, hafter, hsteps]
    cases reply.decision? <;> simp

/-- Everything that is given out is recorded, and the whole strategy receives it. -/
theorem trace_received (hit : it.Steady) (calls : List Call) :
    (it.after calls).trace.toList = it.trace.toList ++ it.received [] calls := by
  induction calls generalizing it with
  | nil => exact (List.append_nil _).symm
  | cons call rest ih =>
    cases hrunning : it.isRunning with
    | false =>
      rw [(after_of_ended hrunning _).2.2, received_of_ended hrunning, List.append_nil]
    | true =>
      obtain ⟨hsteady, hcall⟩ := trace_counted hit hrunning call
      rw [received, ← List.append_assoc, ← hcall]
      exact ih hsteady

/-! ### Handoffs -/

omit [BoundedRandomSource γ] in
/-- What a part counts is the decision that is given out, or nothing. -/
theorem counted_eq (path : List Place) (it : Iteration γ) (call : Call) :
    it.counted path call = [] ∨ it.counted path call = (it.perform call).1.decision?.toList := by
  rw [counted]
  split
  · exact .inl rfl
  · exact .inr rfl

omit [BoundedRandomSource γ] in
/-- If a combination counts as often as its parts together, then it counts what they count. -/
theorem counted_append {call : Call}
    (h : (it.counted path call).length = (it.counted (path ++ [.lead]) call).length +
      (it.counted (path ++ [.rest]) call).length) :
    it.counted path call = it.counted (path ++ [.lead]) call ++ it.counted (path ++ [.rest]) call := by
  have hwhole := counted_eq path it call
  have hlead := counted_eq (path ++ [.lead]) it call
  have hrest := counted_eq (path ++ [.rest]) it call
  generalize it.counted path call = whole at *
  generalize it.counted (path ++ [.lead]) call = lead at *
  generalize it.counted (path ++ [.rest]) call = rest at *
  generalize (it.perform call).1.decision? = decision at *
  cases decision with
  | none => simp_all
  | some decision =>
    rcases hwhole with rfl | rfl <;> rcases hlead with rfl | rfl <;> rcases hrest with rfl | rfl <;>
      simp_all

/-- A combination in a strategy, after a call: a decision that it counts is counted by its lead, or
by its rest if the lead is at its bound. -/
structure CountedInTurn (it : Iteration γ) (path : List Place) (call : Call)
    (lead rest later next : Strategy γ) : Prop where
  part : (it.perform call).2.strategy.part? path = some (.combo later next)
  split : it.counted path call =
    it.counted (path ++ [.lead]) call ++ it.counted (path ++ [.rest]) call
  turn : it.counted (path ++ [.rest]) call ≠ [] →
    it.counted (path ++ [.lead]) call = [] ∧ lead.atBound = true
  bound : later.bound = lead.bound
  leadSteps : later.steps = lead.steps + (it.counted (path ++ [.lead]) call).length
  steps : (Strategy.combo later next).steps =
    (Strategy.combo lead rest).steps + (it.counted path call).length

/-- While an iteration goes on, every combination counts in turn. -/
theorem counted_combo (hit : it.Steady) (hrunning : it.isRunning = true) {call : Call}
    (hstill : (it.perform call).2.isRunning = true) {lead rest : Strategy γ}
    (hpart : it.strategy.part? path = some (.combo lead rest)) :
    ∃ later next, CountedInTurn it path call lead rest later next := by
  obtain ⟨hsteady, hparts⟩ := counted_spec hit hrunning hstill
  have hplace (place : Place) : it.strategy.part? (path ++ [place]) =
      (Strategy.combo lead rest).part? [place] := by
    rw [Strategy.part?_append, hpart, Option.bind_some]
  obtain ⟨now, hnow, -, hsteps⟩ := hparts path _ hpart
  obtain ⟨later, hlater, hbound, hlead⟩ := hparts (path ++ [.lead]) lead (hplace .lead)
  obtain ⟨next, hnext, -, hrest⟩ := hparts (path ++ [.rest]) rest (hplace .rest)
  have hcombo : now = .combo later next := by
    rw [Strategy.part?_append, hnow, Option.bind_some] at hlater hnext
    cases now with
    | combo first second =>
      obtain rfl := Option.some.inj hlater
      obtain rfl := Option.some.inj hnext
      rfl
    | _ => cases hlater
  subst hcombo
  have hbefore := (hit.onTime hrunning).part hpart
  have hafter := (hsteady.onTime hstill).part hnow
  have hsum : (it.counted path call).length = (it.counted (path ++ [.lead]) call).length +
      (it.counted (path ++ [.rest]) call).length := by
    rw [Strategy.steps_combo hafter.2.2, Strategy.steps_combo hbefore.2.2] at hsteps
    omega
  refine ⟨later, next, hnow, counted_append hsum, fun hcounted => ?_, hbound, hlead, hsteps⟩
  -- Only one part counts, and the rest has counted only if the lead is at its bound after the call.
  have hone : (it.counted path call).length ≤ 1 := by
    rcases counted_eq path it call with hnone | hsome
    · rw [hnone]
      exact Nat.zero_le 1
    · rw [hsome]
      exact Option.length_toList_le
  have hpos := List.length_pos_iff.mpr hcounted
  have hnothing : (it.counted (path ++ [.lead]) call).length = 0 := by omega
  refine ⟨List.length_eq_zero_iff.mp hnothing, ?_⟩
  have hdone : later.atBound = true := by
    by_contra hopen
    have hzero := hafter.2.2 (Bool.eq_false_iff.mpr hopen)
    omega
  rw [hbefore.1.steps_le_bound.2, ← hbound, ← hafter.1.steps_le_bound.2.mp hdone, hlead, hnothing,
    Nat.add_zero]

/-- The lead of a combination receives the first of its decisions, as many as it may take, and the
rest receives all others. -/
theorem received_combo (hit : it.Steady) (hrunning : it.isRunning = true) {lead rest : Strategy γ}
    (hpart : it.strategy.part? path = some (.combo lead rest)) (calls : List Call) :
    it.received path calls =
        it.received (path ++ [.lead]) calls ++ it.received (path ++ [.rest]) calls ∧
      ((lead.steps + (it.received (path ++ [.lead]) calls).length : ℕ) : ℕ∞) =
        min lead.bound
          (((Strategy.combo lead rest).steps + (it.received path calls).length : ℕ) : ℕ∞) := by
  induction calls generalizing it lead rest with
  | nil => exact ⟨rfl, ((hit.onTime hrunning).part hpart).steps_lead⟩
  | cons call calls ih =>
    cases hstill : (it.perform call).2.isRunning with
    | false =>
      simp only [received_of_ends hit hrunning hstill]
      exact ⟨rfl, ((hit.onTime hrunning).part hpart).steps_lead⟩
    | true =>
      obtain ⟨later, next, hturn⟩ := counted_combo hit hrunning hstill hpart
      obtain ⟨hsteady, -⟩ := counted_spec hit hrunning hstill
      obtain ⟨hreceived, hmin⟩ := ih hsteady hstill hturn.part
      simp only [received, List.length_append, ← Nat.add_assoc]
      rw [← hturn.leadSteps, ← hturn.steps, ← hturn.bound]
      refine ⟨?_, hmin⟩
      rw [hturn.split, hreceived]
      by_cases hcounted : it.counted (path ++ [.rest]) call = []
      · simp [hcounted]
      · -- The lead is at its bound, so it receives nothing any more.
        obtain ⟨hnothing, hdone⟩ := hturn.turn hcounted
        have hbefore := ((hit.onTime hrunning).part hpart).1
        have hle : ((later.steps + ((it.perform call).2.received (path ++ [.lead]) calls).length : ℕ) :
            ℕ∞) ≤ later.steps := by
          rw [hmin, hturn.leadSteps, hnothing, hturn.bound]
          exact (min_le_left _ _).trans (hbefore.steps_le_bound.2.mp hdone).ge
        have hnone : ((it.perform call).2.received (path ++ [.lead]) calls).length = 0 := by
          have hle := Nat.cast_le.mp hle
          omega
        rw [List.length_eq_zero_iff.mp hnone, hnothing]
        simp

/-- The parts of a strategy remain until the end and beyond. -/
theorem exists_part_after (hit : it.Steady) {part : Strategy γ}
    (hpart : it.strategy.part? path = some part) (calls : List Call) :
    ∃ now, (it.after calls).strategy.part? path = some now := by
  induction calls generalizing it part with
  | nil => exact ⟨part, hpart⟩
  | cons call rest ih =>
    cases hrunning : it.isRunning with
    | false =>
      rw [(after_of_ended hrunning _).2.1]
      exact ⟨part, hpart⟩
    | true =>
      obtain ⟨hsteady, -⟩ := trace_counted hit hrunning call
      have hstep : ∃ now, (it.perform call).2.strategy.part? path = some now := by
        have hperformed := performed hit hrunning call
        generalize it.perform call = replied at hperformed ⊢
        cases hperformed with
        | goesOn _ hasked =>
          obtain ⟨now, hnow, -⟩ := hasked.part hpart
          exact ⟨now, hnow⟩
        | ends _ _ hasked htold =>
          obtain ⟨now, hnow, -⟩ := hasked.part hpart
          rcases htold with hsame | hnotified
          · exact ⟨now, by rw [hsame, hnow]⟩
          · exact ⟨now.notifyBug, by rw [hnotified, Strategy.part?_notifyBug, hnow, Option.map_some]⟩
      obtain ⟨now, hnow⟩ := hstep
      exact ih hsteady hnow

/-- A lead that is at its bound stays as it is, but it is told of a bug that ends the iteration. -/
theorem isTold_lead (hit : it.Steady) {lead rest : Strategy γ}
    (hpart : it.strategy.part? path = some (.combo lead rest)) (hdone : lead.atBound = true)
    (calls : List Call) :
    ∃ now later, (it.after calls).strategy.part? path = some (.combo now later) ∧
      IsTold lead now := by
  induction calls generalizing it rest with
  | nil => exact ⟨lead, rest, hpart, .inl rfl⟩
  | cons call calls ih =>
    cases hrunning : it.isRunning with
    | false =>
      rw [(after_of_ended hrunning _).2.1]
      exact ⟨lead, rest, hpart, .inl rfl⟩
    | true =>
      have hperformed := performed hit hrunning call
      have hafter : it.after (call :: calls) = (it.perform call).2.after calls := rfl
      rw [hafter]
      generalize it.perform call = replied at hperformed ⊢
      cases hperformed with
      | goesOn _ hasked _ _ _ hsteady =>
        obtain ⟨later, hlater⟩ := hasked.part?_lead hpart hdone
        exact ih hsteady hlater
      | ends hended _ hasked htold =>
        obtain ⟨later, hlater⟩ := hasked.part?_lead hpart hdone
        rw [(after_of_ended hended calls).2.1]
        rcases htold with hsame | hnotified
        · exact ⟨lead, later, by rw [hsame, hlater], .inl rfl⟩
        · refine ⟨lead.notifyBug, later.notifyBug, ?_, .inr rfl⟩
          rw [hnotified, Strategy.part?_notifyBug, hlater]
          rfl

end Received

/-! ### Iterations -/

/-- The decisions of an iteration are handed to the parts of its strategy in turn. -/
structure HandsOver (start : Iteration γ) (calls : List Call) : Prop where
  /-- No more decisions are recorded than the strategy may take, -/
  bounded : ((start.after calls).trace.size : ℕ∞) ≤ start.strategy.bound
  /-- and as many if the iteration ends at its step bound. -/
  met : ∀ before call later, calls = before ++ call :: later →
    (start.after before).EndsAtBound call →
    ((start.after calls).trace.size : ℕ∞) = start.strategy.bound
  whole : start.received [] calls = (start.after calls).trace.toList
  /-- Every combination passes the first of its decisions to its lead, and the others to its rest. -/
  inTurn : ∀ path lead rest, start.strategy.part? path = some (.combo lead rest) →
    start.received path calls =
        start.received (path ++ [.lead]) calls ++ start.received (path ++ [.rest]) calls ∧
      ((start.received (path ++ [.lead]) calls).length : ℕ∞) =
        min lead.bound (start.received path calls).length
  /-- Once a lead has received as many decisions as it may take, it stays as it is. -/
  kept : ∀ path lead rest, start.strategy.part? path = some (.combo lead rest) →
    ∀ before later, calls = before ++ later →
    lead.bound ≤ (start.received path before).length →
    ∃ done now, (start.after before).strategy.part? (path ++ [.lead]) = some done ∧
      (start.after calls).strategy.part? (path ++ [.lead]) = some now ∧ IsTold done now

/-- However an iteration is driven, by calls or by the run of a program, the parts of its strategy take
turns up to their bounds; and what is left of the strategy may begin the next iteration. -/
structure KeepsToBounds (start : Iteration γ) : Prop where
  calls : ∀ calls, start.HandsOver calls
  runs : ∀ {σ μ : Type} (program : Program σ μ) (fuel : Nat),
    start.IsDriven ((Execution.start program start).run program fuel).iteration
  next : start.monitors.violation = none → ∀ calls,
    (start.after calls).strategy.prepare.2.Ready ∧ (start.after calls).strategy.reset.Ready

section Iterations

variable [BoundedRandomSource γ] {it : Iteration γ} {path : List Place}

/-- After the calls the strategy of an iteration without a violation has no fault pending. -/
theorem faultless_after (hit : it.Steady) (hrunning : it.isRunning = true)
    (hclean : it.monitors.violation = none) (calls : List Call) :
    (it.after calls).strategy.IsFaultless ∧ ∃ taken, Reached taken (it.after calls).strategy := by
  induction calls generalizing it with
  | nil => exact ⟨hit.faultless hrunning, hit.reached⟩
  | cons call rest ih =>
    have hperformed := performed hit hrunning call
    have hafter : it.after (call :: rest) = (it.perform call).2.after rest := rfl
    rw [hafter]
    generalize it.perform call = replied at hperformed ⊢
    cases hperformed with
    | goesOn hstill _ _ _ hkept hsteady => exact ih hsteady hstill (hkept hclean)
    | ends hended _ _ htold _ hfaultless hsteady =>
      rw [(after_of_ended hended rest).2.1]
      refine ⟨?_, hsteady.reached⟩
      rcases htold with hsame | hnotified
      · rw [hsame]
        exact hfaultless hclean
      · rw [hnotified, Strategy.isFaultless_notifyBug]
        exact hfaultless hclean

/-- An iteration that ends at its step bound has recorded as many decisions as the bound. -/
theorem size_trace_of_endsAtBound (hit : it.Steady) (hrunning : it.isRunning = true)
    (htrace : it.trace.size = it.strategy.steps) {before : List Call} {call : Call}
    (hends : (it.after before).EndsAtBound call) (later : List Call) :
    ((it.after (before ++ call :: later)).trace.size : ℕ∞) = it.strategy.bound := by
  have hself : it.strategy.part? [] = some it.strategy := rfl
  obtain ⟨hsteady, now, hnow, hbound, hsteps⟩ :=
    (steps_received hit hrunning hself before).2 hends.running
  obtain rfl := Option.some.inj hnow
  obtain ⟨hdone, hended⟩ := hends.atBound
  -- Nothing is recorded from the call that ends the iteration on.
  have hlast : (it.after (before ++ call :: later)).trace.toList =
      it.trace.toList ++ it.received [] before := by
    rw [after_append, trace_received hsteady, received_of_ends hsteady hends.running hended,
      List.append_nil, trace_received hit]
  have hsize : (it.after (before ++ call :: later)).trace.size = (it.after before).strategy.steps := by
    rw [Trace.size, ← Array.length_toList, ← Trace.toList, hlast, List.length_append, hsteps, ← htrace,
      Trace.toList, Trace.size, Array.length_toList]
  rw [hsize, ← hbound]
  exact (hsteady.onTime hends.running).steps_le_bound.2.mp hdone

/-- A lead that has received as many decisions as it may take is at its bound, so it stays as it is. -/
theorem isTold_of_received (hit : it.Steady) (hrunning : it.isRunning = true)
    {lead rest : Strategy γ} (hpart : it.strategy.part? path = some (.combo lead rest))
    (hzero : (Strategy.combo lead rest).steps = 0) {before : List Call}
    (hfull : lead.bound ≤ (it.received path before).length) (later : List Call) :
    ∃ done now, (it.after before).strategy.part? (path ++ [.lead]) = some done ∧
      (it.after (before ++ later)).strategy.part? (path ++ [.lead]) = some now ∧
      IsTold done now := by
  have hlead : it.strategy.part? (path ++ [.lead]) = some lead := by
    rw [Strategy.part?_append, hpart]
    rfl
  rw [after_append]
  cases hstill : (it.after before).isRunning with
  | false =>
    obtain ⟨done, hdone⟩ := exists_part_after hit hlead before
    rw [(after_of_ended hstill later).2.1]
    exact ⟨done, done, hdone, hdone, .inl rfl⟩
  | true =>
    obtain ⟨hsteady, done, hdone, hbound, hsteps⟩ :=
      (steps_received hit hrunning hlead before).2 hstill
    obtain ⟨rest', hcombo⟩ := Strategy.exists_combo_of_part? hdone
    have hmin := (received_combo hit hrunning hpart before).2
    rw [hzero, Nat.zero_add, min_eq_left hfull, ← hsteps, ← hbound] at hmin
    have hatBound : done.atBound = true :=
      ((hsteady.onTime hstill).part hdone).steps_le_bound.2.mpr hmin
    obtain ⟨now, last, hlast, htold⟩ := isTold_lead hsteady hcombo hatBound later
    refine ⟨done, now, hdone, ?_, htold⟩
    rw [Strategy.part?_append, hlast]
    rfl

/-- However a program drives an iteration that a ready strategy begins, with whatever monitors: the
decisions that are recorded go to the parts of the strategy in turn, each combination passing the first
of its decisions to its lead and the others to its rest; there are no more of them than the bounds of
the parts add up to, and exactly as many if the iteration ends at its step bound. -/
theorem keepsToBounds_of_ready {strategy : Strategy γ} (hready : strategy.Ready)
    (monitors : Monitors) (coverage : Coverage) (depthBoundIsBug : Bool) :
    KeepsToBounds ({ strategy, monitors, coverage, depthBoundIsBug } : Iteration γ) := by
  obtain ⟨hreached, honTime, hfaultless⟩ := hready.atStart
  have hzero : strategy.steps = 0 := hreached.counts.2
  generalize hstart : ({ strategy, monitors, coverage, depthBoundIsBug } : Iteration γ) = start
  have hstrategy : start.strategy = strategy := by rw [← hstart]
  have hrunning : start.isRunning = true := by
    rw [← hstart]
    rfl
  have hsteady : start.Steady := by
    rw [← hstart]
    exact ⟨fun id op hop => (by cases hop), ⟨0, hreached⟩, fun _ => honTime, fun _ => hfaultless⟩
  have htrace : start.trace.toList = [] := by
    rw [← hstart]
    rfl
  have hsteps {path : List Place} {part : Strategy γ}
      (hpart : start.strategy.part? path = some part) : part.steps = 0 :=
    (hsteady.onTime hrunning).steps_part (hstrategy ▸ hzero) hpart
  have hwhole (calls : List Call) : start.received [] calls = (start.after calls).trace.toList := by
    rw [trace_received hsteady, htrace, List.nil_append]
  refine ⟨fun calls => ?_, fun program fuel => Execution.isDriven_start program start fuel,
    fun hclean calls => ?_⟩
  · refine ⟨?_, ?_, hwhole calls, ?_, ?_⟩
    · have hself : start.strategy.part? [] = some start.strategy := rfl
      obtain ⟨hle, -⟩ := steps_received hsteady hrunning hself calls
      rw [hsteps hself, Nat.zero_add, hwhole] at hle
      exact hle
    · rintro before call later rfl hends
      refine size_trace_of_endsAtBound hsteady hrunning ?_ hends later
      rw [hstrategy, hzero, ← hstart]
      rfl
    · intro path lead rest hpart
      obtain ⟨hsplit, hmin⟩ := received_combo hsteady hrunning hpart calls
      have hlead : start.strategy.part? (path ++ [.lead]) = some lead := by
        rw [Strategy.part?_append, hpart]
        rfl
      rw [hsteps hpart, hsteps hlead, Nat.zero_add, Nat.zero_add] at hmin
      exact ⟨hsplit, hmin⟩
    · rintro path lead rest hpart before later rfl hfull
      exact isTold_of_received hsteady hrunning hpart (hsteps hpart) hfull later
  · obtain ⟨hleft, taken, hafter⟩ := faultless_after hsteady hrunning hclean calls
    exact ⟨.prepare hafter hleft, .reset hafter hleft⟩

/-- Two decisions depth first, and then one more. -/
def twoThenOne : Strategy Tape :=
  .combo (.depthFirst { maxSteps := 2 }) (.liveness (.depthFirst { maxSteps := 1 }))

/-- An operation is created and asks for values. -/
def fourValues : List Call :=
  [.register "a", .change ⟨0⟩ .create, .boolean, .integer 3, .boolean, .integer 2]

/-- Of four values two come from the first part and one from the second, which ends at its bound
before the fourth. -/
theorem keepsToBounds_of_ready_twoThenOne :
    twoThenOne.Ready ∧ KeepsToBounds { strategy := twoThenOne } ∧
      (after { strategy := twoThenOne } fourValues).outcome? = some .stepBoundReached ∧
      received [.lead] { strategy := twoThenOne } fourValues = [.boolean true, .integer 0] ∧
      received [.rest] { strategy := twoThenOne } fourValues = [.boolean true] := by
  have hready : twoThenOne.Ready := .new (.combo (.depthFirst 2) (.liveness (.depthFirst 1)))
  exact ⟨hready, keepsToBounds_of_ready hready {} {} false, rfl, rfl, rfl⟩

end Iterations

end Iteration

end ScheduleExplorer
