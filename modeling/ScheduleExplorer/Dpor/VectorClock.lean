import ScheduleExplorer.Operation.Id

/-!
# Vector clocks

The clock of a step counts, for each operation, how many of that operation's steps it depends on.
A missing entry counts as zero. One clock is before another when it is smaller somewhere and larger
nowhere; clocks that are smaller at one entry and larger at another are concurrent.
-/

namespace ScheduleExplorer

/-- The number of steps of each operation that a step depends on. -/
structure VectorClock where
  entries : List Nat := []
deriving Inhabited

namespace VectorClock

/-- The entry of an operation. -/
def get (op : OperationId) (clock : VectorClock) : Nat :=
  clock.entries[op.index]?.getD 0

/-- The entries of the clock are words of 64 bits. -/
def FitsWords (clock : VectorClock) : Prop :=
  ∀ count ∈ clock.entries, count < UInt64.size

/-- An entry that a clock lacks is a word in any case. -/
theorem fitsWords_iff {clock : VectorClock} : clock.FitsWords ↔ ∀ op, clock.get op < UInt64.size := by
  constructor
  · intro h op
    rw [get]
    cases hentry : clock.entries[op.index]? with
    | none => simp
    | some count => exact h count (List.mem_of_getElem? hentry)
  · intro h count hcount
    obtain ⟨index, hindex⟩ := List.mem_iff_getElem?.mp hcount
    simpa [get, hindex] using h ⟨index⟩

/-- Adds one to the entry at a position. -/
def tickAt : Nat → List Nat → List Nat
  | 0, [] => [1]
  | 0, n :: rest => (n + 1) :: rest
  | index + 1, [] => 0 :: tickAt index []
  | index + 1, n :: rest => n :: tickAt index rest

/-- Counts a step of an operation. The entries are words of 64 bits: the step is counted exactly
unless its entry is the largest word (`FitsWords.tick`). -/
def tick (op : OperationId) (clock : VectorClock) : VectorClock :=
  ⟨tickAt op.index clock.entries⟩

/-- Adding one at a position leaves the other positions alone, also those beyond the end. -/
theorem getD_tickAt (index other : Nat) (entries : List Nat) :
    (tickAt index entries)[other]?.getD 0 =
      entries[other]?.getD 0 + if index = other then 1 else 0 := by
  fun_induction tickAt generalizing other <;> cases other <;> simp_all

/-- A step adds one to the entry of its operation and leaves the others alone. -/
theorem get_tick (op other : OperationId) (clock : VectorClock) :
    (clock.tick op).get other = clock.get other + if op = other then 1 else 0 := by
  cases op; cases other
  simp [get, tick, getD_tickAt]

/-- Among words a step is counted as long as its entry has room for it. -/
theorem FitsWords.tick {clock : VectorClock} (h : clock.FitsWords) {op : OperationId}
    (hroom : clock.get op + 1 < UInt64.size) : (clock.tick op).FitsWords := by
  rw [fitsWords_iff] at *
  intro other
  have hother := h other
  rw [get_tick]
  split
  · next heq => exact heq ▸ hroom
  · exact hother

/-- The larger entry at every position. -/
def mergeEntries : List Nat → List Nat → List Nat
  | [], theirs => theirs
  | mine, [] => mine
  | m :: mine, t :: theirs => max m t :: mergeEntries mine theirs

/-- The least clock that is not below either clock. -/
def merge (clock other : VectorClock) : VectorClock :=
  ⟨mergeEntries clock.entries other.entries⟩

/-- A merge of entries is the maximum at every position, also beyond the end of either. -/
theorem getD_mergeEntries (index : Nat) (mine theirs : List Nat) :
    (mergeEntries mine theirs)[index]?.getD 0 =
      max (mine[index]?.getD 0) (theirs[index]?.getD 0) := by
  fun_induction mergeEntries generalizing index <;> cases index <;> simp_all

/-- A merge is taken entry by entry, whatever the lengths. -/
theorem get_merge (op : OperationId) (clock other : VectorClock) :
    (clock.merge other).get op = max (clock.get op) (other.get op) := by
  simp [get, merge, getD_mergeEntries]

/-- Joins the verdict on the entries so far with the order of the next ones. -/
def joinOrder : Ordering → Ordering → Option Ordering
  | verdict, .eq => some verdict
  | .eq, step => some step
  | verdict, step => if verdict = step then some verdict else none

/-- The order at every position. -/
def orders (mine theirs : List Nat) : List Ordering :=
  List.zipWithAll (fun m t => compare (m.getD 0) (t.getD 0)) mine theirs

/-- The order of two clocks; `none` if they are concurrent. The entries are compared one by one, and
no more of them as soon as the two sides disagree. -/
def compare? (clock other : VectorClock) : Option Ordering :=
  (orders clock.entries other.entries).foldlM joinOrder .eq

/-- Whether a clock is before another. -/
def happensBefore (clock other : VectorClock) : Bool :=
  compare? clock other = some .lt

/-- Whether neither clock is before the other and they differ. -/
def isConcurrent (clock other : VectorClock) : Bool :=
  (compare? clock other).isNone

/-- Clocks that differ only in zeros at their ends count as equal. -/
instance : BEq VectorClock where
  beq clock other := compare? clock other = some .eq

end VectorClock

end ScheduleExplorer
