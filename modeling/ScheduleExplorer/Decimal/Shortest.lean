import ScheduleExplorer.Decimal.Binary64

/-!
# The shortest decimal of a double

The decimals that read back as a given double are those in an interval around it. The shortest one
is the multiple of the largest power of ten that has a multiple there, and of two multiples of that
power the nearer one.
-/

namespace ScheduleExplorer.Decimal

/-- A decimal `digits * 10 ^ power`. -/
structure Scaled where
  digits : Nat
  power : Int
deriving DecidableEq

/-- The multiple of `10 ^ power` nearest to the value among those that read back as it.

Lengths are counted in quarters of a unit in the last place: the interval reaches two of them up,
and two down or, at a power of two with a narrower neighbour below, one. Its ends belong to it
when the mantissa is even. -/
def nearestMultiple? (value : Binary64) (power : Int) : Option Nat :=
  let num := scaleNum (value.exponent - 2) (-power)
  let den := scaleDen (value.exponent - 2) (-power)
  let narrow := value.mantissa == Nat.pow 2 52 && value.exponent != -1074
  let middle := 4 * value.mantissa * num
  let low := (4 * value.mantissa - if narrow then 1 else 2) * num
  let high := (4 * value.mantissa + 2) * num
  let inside (c : Nat) : Bool :=
    0 < c && if value.mantissa % 2 = 0 then low ≤ c * den && c * den ≤ high
      else low < c * den && c * den < high
  let below := middle / den
  let above := below + 1
  match inside below, inside above with
  | true, true =>
    let nearest := roundQuotient middle den
    some nearest
  | true, false => some below
  | false, true => some above
  | false, false => none

/-- Tries the powers from `power` downwards, at most `count` of them. -/
def shortestFrom (value : Binary64) (power : Int) : Nat → Scaled
  | 0 => ⟨0, 0⟩
  | count + 1 =>
    match nearestMultiple? value power with
    | some digits => ⟨digits, power⟩
    | none => shortestFrom value (power - 1) count

/-- The shortest decimal that reads back as a positive double. -/
def shortest (value : Binary64) : Scaled :=
  shortestFrom value 309 700

end ScheduleExplorer.Decimal
