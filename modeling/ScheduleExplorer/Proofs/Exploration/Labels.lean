import ScheduleExplorer.Dpor.Frame
import ScheduleExplorer.Trace
import Mathlib.Data.List.Basic
import Mathlib.Logic.Relation

/-!
# Labels of an iteration

A label says of one step of an iteration which operation was scheduled, which step it had announced,
and which values it drew until the next turn. Iterations whose labels differ only in the order of
independent neighbours are equivalent.

A label can start an iteration if it can be brought to its front. Equivalent iterations can be started
by the same labels, and stay equivalent when a common first label is taken away; both are what is
needed to compare the schedules of a search turn by turn.
-/

namespace ScheduleExplorer

/-- One step of an iteration. -/
structure Label where
  op : OperationId
  step : Option PendingStep
  values : List Decision
deriving DecidableEq

namespace Decision

/-- The values that are drawn before the first turn. -/
def values (decisions : List Decision) : List Decision :=
  decisions.takeWhile fun decision => decision.operation?.isNone

/-- The turns, each with the values that are drawn until the next one. -/
def turns : List Decision → List (OperationId × List Decision)
  | [] => []
  | .operation id :: rest => (id, values rest) :: turns rest
  | _ :: rest => turns rest

end Decision

namespace Label

/-- The labels of decisions, in whose frames the steps were announced. -/
def ofPath (decisions : List Decision) (frames : List Frame) : List Label :=
  (Decision.turns decisions).zipWith
    (fun turn frame => ⟨turn.1, frame.pendingOf? turn.1, turn.2⟩) frames

/-- Labels of different operations whose steps do not depend on each other. -/
def IsIndependent (label other : Label) : Prop :=
  label.op ≠ other.op ∧ ∃ step ∈ label.step, ∃ later ∈ other.step, step.isDependent later = false

/-- Independence is symmetric. -/
theorem IsIndependent.symm {label other : Label} (h : label.IsIndependent other) :
    other.IsIndependent label := by
  obtain ⟨hop, step, hstep, later, hlater, hfree⟩ := h
  exact ⟨hop.symm, later, hlater, step, hstep, (later.isDependent_comm step).trans hfree⟩

/-- Independent labels are different. -/
theorem IsIndependent.ne {label other : Label} (h : label.IsIndependent other) : label ≠ other :=
  fun heq => h.1 (congrArg op heq)

/-- Two neighbours are swapped. -/
inductive Swap : List Label → List Label → Prop where
  | swap (before after : List Label) {label other : Label} (h : label.IsIndependent other) :
      Swap (before ++ label :: other :: after) (before ++ other :: label :: after)

/-- Labels that come out of one another by swapping independent neighbours repeatedly. -/
def Equivalent : List Label → List Label → Prop :=
  Relation.ReflTransGen Swap

/-- A swap is undone by a swap. -/
instance : Std.Symm Swap where
  symm _ _ h := by
    cases h with
    | swap before after h => exact .swap before after h.symm

/-- Equivalence is symmetric. -/
theorem Equivalent.symm {labels others : List Label} (h : Equivalent labels others) :
    Equivalent others labels :=
  Relation.ReflTransGen.stdSymm.symm _ _ h

/-- A label that can be brought to the front. -/
def CanStart (label : Label) : List Label → Prop
  | [] => False
  | first :: rest => label = first ∨ label.IsIndependent first ∧ CanStart label rest

/-- A label that can start after others either can start them or is independent of them. -/
theorem canStart_append (label : Label) (before after : List Label) :
    label.CanStart (before ++ after) ↔
      label.CanStart before ∨ (∀ other ∈ before, label.IsIndependent other) ∧ label.CanStart after := by
  induction before with
  | nil => simp [CanStart]
  | cons first rest ih =>
    simp only [List.cons_append, CanStart, ih, List.forall_mem_cons]
    grind

/-- A swap does not change what can start. -/
theorem Swap.canStart {labels others : List Label} (h : Swap labels others) {label : Label}
    (hstart : label.CanStart labels) : label.CanStart others := by
  cases h with
  | @swap before after first second h =>
    rw [canStart_append] at hstart ⊢
    refine hstart.imp_right fun ⟨hbefore, hstart⟩ => ⟨hbefore, ?_⟩
    rcases hstart with rfl | ⟨hfirst, rfl | ⟨hsecond, hafter⟩⟩
    · exact .inr ⟨h, .inl rfl⟩
    · exact .inl rfl
    · exact .inr ⟨hsecond, .inr ⟨hfirst, hafter⟩⟩

/-- Equivalent iterations can be started by the same labels. -/
theorem Equivalent.canStart {labels others : List Label} (h : Equivalent labels others)
    {label : Label} (hstart : label.CanStart labels) : label.CanStart others := by
  induction h with
  | refl => exact hstart
  | tail _ hswap ih => exact hswap.canStart ih

/-- The first label of an iteration can start every equivalent one. -/
theorem Equivalent.canStart_cons {label : Label} {labels others : List Label}
    (h : Equivalent (label :: labels) others) : label.CanStart others :=
  h.canStart (.inl rfl)

/-- Nothing changes for a swap when a label is put before it. -/
theorem Swap.cons {labels others : List Label} (h : Swap labels others) (label : Label) :
    Swap (label :: labels) (label :: others) := by
  cases h with
  | swap before after h => exact .swap (label :: before) after h

/-- A swap remains, or nothing does, when a label is taken away. -/
theorem Swap.erase {labels others : List Label} (h : Swap labels others) (label : Label) :
    Equivalent (labels.erase label) (others.erase label) := by
  cases h with
  | @swap before after first second h =>
    induction before with
    | nil =>
      by_cases hfirst : first = label
      · have hsecond : second ≠ label := fun heq => h.ne (hfirst.trans heq.symm)
        simp only [List.nil_append, List.erase_cons, hfirst, hsecond, beq_iff_eq, if_true, if_false]
        exact .refl
      · by_cases hsecond : second = label
        · simp only [List.nil_append, List.erase_cons, hfirst, hsecond, beq_iff_eq, if_true, if_false]
          exact .refl
        · simp only [List.nil_append, List.erase_cons, hfirst, hsecond, beq_iff_eq, if_false]
          exact .single (.swap [] _ h)
    | cons head rest ih =>
      by_cases hhead : head = label
      · simp only [List.cons_append, List.erase_cons, hhead, beq_iff_eq, if_true]
        exact .single (.swap rest after h)
      · simp only [List.cons_append, List.erase_cons, hhead, beq_iff_eq, if_false]
        exact ih.lift (head :: ·) fun _ _ hswap => hswap.cons head

/-- Iterations that begin alike are equivalent only if the rests are. -/
theorem Equivalent.of_cons {label : Label} {labels others : List Label}
    (h : Equivalent (label :: labels) (label :: others)) : Equivalent labels others := by
  have herase {labels others : List Label} (h : Equivalent labels others) :
      Equivalent (labels.erase label) (others.erase label) := by
    induction h with
    | refl => exact .refl
    | tail _ hswap ih => exact ih.trans (hswap.erase label)
  have hrest := herase h
  rwa [List.erase_cons_head, List.erase_cons_head] at hrest

end Label

end ScheduleExplorer
