/-!
# Seeds of iterations

Each iteration draws from a seed of its own, mixed from the base seed of the run and the number of
the iteration. Every step of the mix can be undone: an addition, a multiplication by an odd word or
an exclusive or with a right shift.
-/

namespace ScheduleExplorer

/-- Folds the high bits of a word into its low bits. -/
def xorShift (word : UInt64) (shift : UInt64) : UInt64 :=
  word ^^^ (word >>> shift)

/-- The seed of an iteration. -/
def deriveSeed (base iteration : UInt64) : UInt64 :=
  let z := base + iteration * 0x9E3779B97F4A7C15
  let z := xorShift z 30 * 0xBF58476D1CE4E5B9
  let z := xorShift z 27 * 0x94D049BB133111EB
  xorShift z 31

end ScheduleExplorer
