import Mathlib.Order.Bounds.Basic
import ScheduleExplorer.Proofs.Dpor.Clock

/-!
# Vector clocks form a join-semilattice

Clocks are ordered by their entries, with zero for a missing one. This is a preorder: clocks that
differ in zeros at their ends are above each other, and the comparison finds them equal. In this
order the merge of two clocks is their least upper bound, and counting a step goes strictly up.

Entries are natural numbers here. `FitsWords` says which clocks have entries of 64 bits: a merge
never leaves them, and a step does only when the entry that it counts is already the largest one.
-/

namespace ScheduleExplorer.VectorClock

variable {clock other : VectorClock}

/-- A clock is below another one if none of its entries is larger. -/
instance : Preorder VectorClock :=
  Preorder.lift fun clock (op : OperationId) => clock.get op

/-- The order of clocks is that of their entries. -/
theorem le_def : clock ≤ other ↔ ∀ op, clock.get op ≤ other.get op :=
  Iff.rfl

/-- A clock is strictly below another one if some entry is also smaller. -/
theorem lt_iff_exists : clock < other ↔
    (∀ op, clock.get op ≤ other.get op) ∧ ∃ op, clock.get op < other.get op := by
  rw [lt_iff_le_not_ge, le_def, le_def]
  simp only [not_forall, not_le]

/-! ### The comparison -/

/-- The comparison finds a clock less exactly when it is strictly below. -/
theorem compare?_eq_lt_iff : clock.compare? other = some .lt ↔ clock < other := by
  rw [compare?_eq_lt, lt_iff_exists]

/-- The comparison finds a clock greater exactly when it is strictly above. -/
theorem compare?_eq_gt_iff : clock.compare? other = some .gt ↔ other < clock := by
  rw [compare?_eq_gt, lt_iff_exists]

/-- The comparison finds clocks equal exactly when each is below the other. -/
theorem compare?_eq_eq_iff : clock.compare? other = some .eq ↔ clock ≤ other ∧ other ≤ clock := by
  simp only [compare?_eq_eq, le_def, ← forall_and, Nat.le_antisymm_iff]

/-- The comparison finds no order exactly when neither clock is below the other. -/
theorem compare?_eq_none_iff :
    clock.compare? other = none ↔ ¬ clock ≤ other ∧ ¬ other ≤ clock := by
  constructor
  · intro hnone
    -- none of the three verdicts holds, so neither direction does, alone or with the other
    have hlt : ¬ clock < other := by simp [← compare?_eq_lt_iff, hnone]
    have hgt : ¬ other < clock := by simp [← compare?_eq_gt_iff, hnone]
    have heq : ¬ (clock ≤ other ∧ other ≤ clock) := by simp [← compare?_eq_eq_iff, hnone]
    rw [lt_iff_le_not_ge] at hlt hgt
    exact ⟨fun hle => hlt ⟨hle, fun hge => heq ⟨hle, hge⟩⟩,
      fun hge => hgt ⟨hge, fun hle => heq ⟨hle, hge⟩⟩⟩
  · rintro ⟨hle, hge⟩
    cases horder : clock.compare? other with
    | none => rfl
    | some order =>
      cases order with
      | lt => exact absurd (compare?_eq_lt_iff.mp horder).le hle
      | eq => exact absurd (compare?_eq_eq_iff.mp horder).1 hle
      | gt => exact absurd (compare?_eq_gt_iff.mp horder).le hge

/-- Equal entries decide nothing, and the two that differ disagree. -/
example : compare? ⟨[1, 2, 3]⟩ ⟨[1, 3, 2, 0]⟩ = none := by
  decide

/-- One clock happens before another exactly when it is strictly below. -/
theorem happensBefore_iff_lt : clock.happensBefore other = true ↔ clock < other := by
  rw [happensBefore_iff, lt_iff_exists]

/-! ### Zeros at the end -/

/-- A clock with some more zeros at its end. -/
def padded (count : Nat) (clock : VectorClock) : VectorClock :=
  ⟨clock.entries ++ List.replicate count 0⟩

/-- Zeros at the end of a clock are entries that it has anyway. -/
@[simp] theorem get_padded (count : Nat) (clock : VectorClock) (op : OperationId) :
    (clock.padded count).get op = clock.get op := by
  simp only [padded, get, List.getElem?_append, List.getElem?_replicate]
  grind

/-- Clocks with the same entries differ in zeros at their ends only: the shorter one lacks as many as
make it as long as the longer one. -/
theorem padded_eq_padded (h : ∀ op, clock.get op = other.get op) :
    clock.padded (other.entries.length - clock.entries.length) =
      other.padded (clock.entries.length - other.entries.length) := by
  rw [padded, padded, mk.injEq]
  apply List.ext_getElem?
  intro index
  have hentry : clock.entries[index]?.getD 0 = other.entries[index]?.getD 0 := h ⟨index⟩
  simp only [List.getElem?_append, List.getElem?_replicate]
  grind

/-- Clocks count as equal exactly when their entries are. -/
theorem beq_iff_get : (clock == other) = true ↔ ∀ op, clock.get op = other.get op := by
  rw [← compare?_eq_eq]
  exact decide_eq_true_iff

/-- Clocks count as equal exactly when they differ in zeros at their ends only. -/
theorem beq_iff_padded : (clock == other) = true ↔ ∃ j k, clock.padded j = other.padded k := by
  rw [beq_iff_get]
  constructor
  · intro h
    exact ⟨_, _, padded_eq_padded h⟩
  · rintro ⟨j, k, h⟩ op
    rw [← get_padded j clock, h, get_padded]

/-- What happens before depends on the entries of the clocks only. -/
theorem happensBefore_congr {before after : VectorClock}
    (hbefore : ∀ op, clock.get op = before.get op) (hafter : ∀ op, other.get op = after.get op) :
    clock.happensBefore other = before.happensBefore after := by
  rw [Bool.eq_iff_iff, happensBefore_iff, happensBefore_iff]
  simp only [hbefore, hafter]

/-! ### Merges and steps -/

/-- The merge of two clocks is their least upper bound. -/
theorem isLUB_merge (clock other : VectorClock) : IsLUB {clock, other} (clock.merge other) := by
  constructor
  · rintro below (rfl | rfl) op
    · simp [get_merge]
    · simp [get_merge]
  · intro above habove op
    have hclock := habove (Set.mem_insert clock {other}) op
    have hother := habove (Set.mem_insert_of_mem clock rfl) op
    simp_all [get_merge]

/-- Counting a step goes strictly up. -/
theorem lt_tick (op : OperationId) (clock : VectorClock) : clock < clock.tick op := by
  rw [lt_iff_exists]
  constructor
  · intro other
    simp [get_tick]
  · exact ⟨op, by simp [get_tick]⟩

/-! ### Entries of 64 bits -/

/-- A merge of clocks of words has words only. -/
theorem FitsWords.merge (h : clock.FitsWords) (hother : other.FitsWords) :
    (clock.merge other).FitsWords := by
  rw [fitsWords_iff] at *
  intro op
  rw [get_merge]
  exact max_lt (h op) (hother op)

/-- Counting a step leaves the words only if its entry is the largest word. -/
theorem fitsWords_tick_iff (h : clock.FitsWords) (op : OperationId) :
    (clock.tick op).FitsWords ↔ clock.get op + 1 < UInt64.size := by
  refine ⟨fun htick => ?_, h.tick⟩
  simpa [get_tick] using fitsWords_iff.mp htick op

/-- The comparison, with its verdict over entries of any lengths, is that of the entrywise order;
what happens before is a strict order that ignores zeros at the ends, as equality does; and the merge
and the step are the join of this order and a strict increase. On words of 64 bits the same holds as
long as no step is counted in the largest one: a step with room for it leaves a clock of words, which
is larger at the entry of its operation and the same elsewhere. -/
theorem semilattice_laws (a b c : VectorClock) (op : OperationId) :
    ((a.compare? b = some .lt ↔ a < b) ∧
      (a.compare? b = some .eq ↔ ∀ id, a.get id = b.get id) ∧
      (a.compare? b = some .gt ↔ b < a) ∧
      (a.compare? b = none ↔ ¬ a ≤ b ∧ ¬ b ≤ a)) ∧
    (a.happensBefore a = false ∧
      (a.happensBefore b = true → b.happensBefore c = true → a.happensBefore c = true) ∧
      ((a == b) = true ↔ ∃ j k, a.padded j = b.padded k) ∧
      ((a == b) = true → a.happensBefore c = b.happensBefore c ∧
        c.happensBefore a = c.happensBefore b)) ∧
    IsLUB {a, b} (a.merge b) ∧ a < a.tick op ∧
    (a.FitsWords → b.FitsWords → (a.merge b).FitsWords) ∧
    (a.FitsWords → ((a.tick op).FitsWords ↔ a.get op + 1 < UInt64.size)) ∧
    (a.FitsWords → a.get op + 1 < UInt64.size → (a.tick op).FitsWords ∧ a < a.tick op ∧
      ∀ id, (a.tick op).get id = a.get id + if op = id then 1 else 0) := by
  refine ⟨⟨compare?_eq_lt_iff, compare?_eq_eq, compare?_eq_gt_iff, compare?_eq_none_iff⟩,
    ⟨?_, ?_, beq_iff_padded, ?_⟩, isLUB_merge a b, lt_tick op a, .merge,
    fun h => fitsWords_tick_iff h op,
    fun h hroom => ⟨h.tick hroom, lt_tick op a, fun id => get_tick op id a⟩⟩
  · rw [Bool.eq_false_iff, ne_eq, happensBefore_iff_lt]
    exact lt_irrefl a
  · simp only [happensBefore_iff_lt]
    exact lt_trans
  · intro hbeq
    have hget := beq_iff_get.mp hbeq
    exact ⟨happensBefore_congr hget fun _ => rfl, happensBefore_congr (fun _ => rfl) hget⟩

end ScheduleExplorer.VectorClock
