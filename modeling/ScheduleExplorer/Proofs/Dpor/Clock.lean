import Mathlib.Data.List.Basic
import ScheduleExplorer.Dpor.VectorClock

/-!
# The order of vector clocks

Clocks of any lengths are compared as functions of the operations, with zero for a missing entry. A
clock is before another one if no entry is larger and one is smaller.
-/

namespace ScheduleExplorer.VectorClock

/-- The orders of the entries join to an order if it occurs and no other one does, apart from
equality. The verdict so far counts as one more order. -/
theorem foldlM_joinOrder_eq_some {verdict order : Ordering} {orders : List Ordering} :
    orders.foldlM joinOrder verdict = some order ↔
      (∀ step ∈ verdict :: orders, step = .eq ∨ step = order) ∧ order ∈ verdict :: orders := by
  induction orders generalizing verdict with
  | nil => cases verdict <;> cases order <;> simp
  | cons step rest ih =>
    rw [List.foldlM_cons]
    cases verdict <;> cases step <;> cases order <;> simp [joinOrder, ih]

/-- The orders of two clocks are those of their entries; where both have none, they are equal. -/
theorem mem_orders {clock other : VectorClock} {order : Ordering} (h : order ≠ .eq) :
    order ∈ orders clock.entries other.entries ↔
      ∃ op, compare (clock.get op) (other.get op) = order := by
  have hentry (op : OperationId) : (orders clock.entries other.entries)[op.index]?.getD .eq =
      compare (clock.get op) (other.get op) := by
    rw [orders, List.getElem?_zipWithAll, get, get]
    cases clock.entries[op.index]? <;> cases other.entries[op.index]? <;> rfl
  constructor
  · intro hmem
    obtain ⟨index, hindex⟩ := List.mem_iff_getElem?.mp hmem
    refine ⟨⟨index⟩, ?_⟩
    rw [← hentry, hindex, Option.getD_some]
  · rintro ⟨op, hop⟩
    rw [← hentry] at hop
    cases hindex : (orders clock.entries other.entries)[op.index]? with
    | none =>
      rw [hindex] at hop
      exact absurd hop.symm h
    | some found =>
      rw [hindex, Option.getD_some] at hop
      exact hop ▸ List.mem_of_getElem? hindex

/-- Two clocks have an order if their entries have no other one, apart from equality, and have this
one somewhere, unless it is equality. -/
theorem compare?_eq_some_iff {clock other : VectorClock} {order : Ordering} :
    clock.compare? other = some order ↔
      (∀ op, compare (clock.get op) (other.get op) = .eq ∨
        compare (clock.get op) (other.get op) = order) ∧
      (order = .eq ∨ ∃ op, compare (clock.get op) (other.get op) = order) := by
  have hall : (∀ step ∈ orders clock.entries other.entries, step = .eq ∨ step = order) ↔
      ∀ op, compare (clock.get op) (other.get op) = .eq ∨
        compare (clock.get op) (other.get op) = order := by
    constructor
    · intro h op
      by_cases heq : compare (clock.get op) (other.get op) = .eq
      · exact .inl heq
      · exact h _ ((mem_orders heq).mpr ⟨op, rfl⟩)
    · intro h step hstep
      by_cases heq : step = .eq
      · exact .inl heq
      · obtain ⟨op, rfl⟩ := (mem_orders heq).mp hstep
        exact h op
  rw [compare?, foldlM_joinOrder_eq_some, List.forall_mem_cons, hall, List.mem_cons]
  by_cases heq : order = .eq
  · simp [heq]
  · simp [heq, mem_orders heq]

/-- One clock is before another if it is nowhere larger and somewhere smaller. -/
theorem compare?_eq_lt {clock other : VectorClock} :
    clock.compare? other = some .lt ↔
      (∀ op, clock.get op ≤ other.get op) ∧ ∃ op, clock.get op < other.get op := by
  simp only [compare?_eq_some_iff, Nat.compare_eq_eq, Nat.compare_eq_lt, reduceCtorEq, false_or]
  refine and_congr_left fun _ => forall_congr' fun op => ?_
  omega

/-- One clock is after another if it is nowhere smaller and somewhere larger. -/
theorem compare?_eq_gt {clock other : VectorClock} :
    clock.compare? other = some .gt ↔
      (∀ op, other.get op ≤ clock.get op) ∧ ∃ op, other.get op < clock.get op := by
  simp only [compare?_eq_some_iff, Nat.compare_eq_eq, Nat.compare_eq_gt, reduceCtorEq, false_or]
  refine and_congr_left fun _ => forall_congr' fun op => ?_
  omega

/-- Two clocks are equal if their entries are. -/
theorem compare?_eq_eq {clock other : VectorClock} :
    clock.compare? other = some .eq ↔ ∀ op, clock.get op = other.get op := by
  simp [compare?_eq_some_iff]

/-- What happens before is what the comparison finds to be less. -/
theorem happensBefore_iff {clock other : VectorClock} :
    clock.happensBefore other = true ↔
      (∀ op, clock.get op ≤ other.get op) ∧ ∃ op, clock.get op < other.get op := by
  rw [happensBefore, decide_eq_true_eq, compare?_eq_lt]

/-- What is merged into a clock does not lower it. -/
theorem get_le_foldl_merge (op : OperationId) (clock : VectorClock) (others : List VectorClock) :
    clock.get op ≤ (others.foldl merge clock).get op := by
  induction others generalizing clock with
  | nil => exact Nat.le_refl _
  | cons other rest ih =>
    calc clock.get op ≤ (clock.merge other).get op := by rw [get_merge]; exact Nat.le_max_left _ _
      _ ≤ _ := ih _

/-- A merge is as large as every clock that is merged. -/
theorem get_le_foldl_merge_of_mem (op : OperationId) (clock : VectorClock) {other : VectorClock}
    {others : List VectorClock} (h : other ∈ others) :
    other.get op ≤ (others.foldl merge clock).get op := by
  induction others generalizing clock with
  | nil => cases h
  | cons first rest ih =>
    rcases List.mem_cons.mp h with rfl | hrest
    · calc other.get op ≤ (clock.merge other).get op := by rw [get_merge]; exact Nat.le_max_right _ _
        _ ≤ _ := get_le_foldl_merge op _ rest
    · exact ih _ hrest

/-- Every entry of a merge comes from one of the clocks. -/
theorem get_foldl_merge (op : OperationId) (clock : VectorClock) (others : List VectorClock) :
    ∃ source ∈ clock :: others, (others.foldl merge clock).get op = source.get op := by
  induction others generalizing clock with
  | nil => exact ⟨clock, List.mem_cons_self, rfl⟩
  | cons other rest ih =>
    obtain ⟨source, hsource, heq⟩ := ih (clock.merge other)
    rcases List.mem_cons.mp hsource with rfl | hrest
    · rw [get_merge] at heq
      rcases Nat.le_total (clock.get op) (other.get op) with hle | hle
      · exact ⟨other, by simp, by rw [List.foldl_cons, heq, Nat.max_eq_right hle]⟩
      · exact ⟨clock, by simp, by rw [List.foldl_cons, heq, Nat.max_eq_left hle]⟩
    · exact ⟨source, by simp [hrest], by rw [List.foldl_cons, heq]⟩

end ScheduleExplorer.VectorClock
