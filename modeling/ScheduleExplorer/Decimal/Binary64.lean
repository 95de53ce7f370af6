/-!
# Binary floating point numbers as integers

A finite double is `mantissa * 2 ^ exponent` up to its sign. The number formats are computed from
these two integers in exact arithmetic.
-/

namespace ScheduleExplorer.Decimal

/-- A finite double: `± mantissa * 2 ^ exponent`. -/
structure Binary64 where
  negative : Bool
  mantissa : Nat
  exponent : Int
deriving DecidableEq

/-- Decodes the IEEE 754 bits of a double; infinities and NaN have no value. -/
def Binary64.ofBits? (bits : UInt64) : Option Binary64 :=
  let negative := bits >>> 63 == 1
  let biased := ((bits >>> 52) &&& 0x7FF).toNat
  let fraction := (bits &&& 0xFFFFFFFFFFFFF).toNat
  if biased = 0x7FF then none
  else if biased = 0 then some ⟨negative, fraction, -1074⟩
  else some ⟨negative, Nat.pow 2 52 + fraction, (biased : Int) - 1075⟩

/-- The numerator of `2 ^ exponent * 10 ^ power`. -/
def scaleNum (exponent power : Int) : Nat :=
  Nat.pow 2 exponent.toNat * Nat.pow 10 power.toNat

/-- The denominator of `2 ^ exponent * 10 ^ power`. -/
def scaleDen (exponent power : Int) : Nat :=
  Nat.pow 2 (-exponent).toNat * Nat.pow 10 (-power).toNat

/-- The quotient rounded to the nearest integer, a tie to the even neighbour. -/
def roundQuotient (num den : Nat) : Nat :=
  let floor := num / den
  let rest := num % den
  if 2 * rest < den then floor
  else if den < 2 * rest then floor + 1
  else if floor % 2 = 0 then floor else floor + 1

end ScheduleExplorer.Decimal
