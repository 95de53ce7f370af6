import ScheduleExplorer.Random.Tape
import Mathlib.Algebra.Order.Ring.Nat
import Mathlib.Tactic.Ring

/-!
# Draws stay below their bounds

The ChaCha stream scales a draw to its bound and may add one. The addition is safe because it
happens only when the fraction of the scaled draw is so large that the whole part is not the last
number below the bound. Tapes reduce a word modulo the bound.
-/

namespace ScheduleExplorer

namespace ChaChaSource

/-- The scaled draw is below the bound, and one more is too whenever the fraction is large enough
for a carry. -/
theorem scaled_carry_lt {range bound first : Nat} (hfirst : first < range)
    (hfraction : range - bound < first * bound % range) :
    first * bound / range + 1 < bound := by
  have hsplit := Nat.div_add_mod (first * bound) range
  have hrange : 0 < range := Nat.zero_lt_of_lt hfirst
  have hmod : first * bound % range < range := Nat.mod_lt _ hrange
  by_contra hge
  have hwhole : bound ≤ first * bound / range + 1 := Nat.not_lt.mp hge
  have hfirst' : (first + 1) * bound ≤ range * bound := Nat.mul_le_mul_right _ hfirst
  have hwhole' : range * bound ≤ range * (first * bound / range + 1) :=
    Nat.mul_le_mul_left _ hwhole
  rw [Nat.add_one_mul] at hfirst'
  rw [Nat.mul_add_one] at hwhole'
  omega

/-- Scaling a draw of the given width gives a number below the bound. -/
theorem scaleDraw_lt (width bound : Nat) (draw : ChaChaSource → Nat × ChaChaSource)
    (hdraw : ∀ source, (draw source).1 < Nat.pow 2 width) (hbound : 0 < bound) (source : ChaChaSource) :
    (scaleDraw width bound draw source).1 < bound := by
  have hfirst := hdraw source
  have hwhole : (draw source).1 * bound / Nat.pow 2 width < bound :=
    Nat.div_lt_of_lt_mul (Nat.mul_lt_mul_of_pos_right hfirst hbound)
  simp only [scaleDraw]
  split
  · next hfraction =>
    have hcarry := scaled_carry_lt hfirst hfraction
    dsimp only
    split <;> assumption
  · exact hwhole

/-- A number drawn below a positive bound is below it. -/
theorem nextBounded_lt (bound : Nat) (source : ChaChaSource) (hbound : 0 < bound) :
    (nextBounded bound source).1 < bound := by
  rw [nextBounded, if_neg (Nat.ne_of_gt hbound)]
  split
  · exact scaleDraw_lt 32 bound _ (fun source => (source.nextWord.1).toNat_lt) hbound source
  · exact scaleDraw_lt 64 bound _ (fun source => (source.nextDoubleWord.1).toNat_lt) hbound source

instance : LawfulRandomSource ChaChaSource where
  nextBounded_lt := nextBounded_lt
  nextBounded_zero _ := rfl

end ChaChaSource

namespace Tape

instance : LawfulRandomSource Tape where
  nextBounded_lt bound tape hbound := by
    change (if bound = 0 then (0, tape) else _).1 < bound
    rw [if_neg (Nat.ne_of_gt hbound)]
    exact Nat.mod_lt _ hbound
  nextBounded_zero _ := rfl

end Tape

namespace Generator

instance : LawfulRandomSource Generator where
  nextBounded_lt bound source hbound := by
    cases source with
    | chaCha source => exact LawfulRandomSource.nextBounded_lt bound source hbound
    | tape source => exact LawfulRandomSource.nextBounded_lt bound source hbound
  nextBounded_zero source := by
    cases source <;> rfl

end Generator

end ScheduleExplorer
