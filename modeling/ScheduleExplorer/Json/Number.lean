import ScheduleExplorer.Json

/-!
# JSON numbers

A number without fraction and exponent is an integer when it fits 64 bits. Any other number is a
double: the leading decimal digits that fit a word, times or divided by a power of ten, with one
rounding for the digits and one for each scaling.
-/

namespace ScheduleExplorer.Json

/-- The largest power of ten with a double of its own. -/
def maxPower : Nat := 308

/-- Divides by `10 ^ power`, in steps of the largest power of ten. -/
def divideByPower (value : Float) (power : Nat) : Float :=
  if power ≤ maxPower then value / Float.ofScientific 1 false power
  else if value == 0.0 then value
  else divideByPower (value / Float.ofScientific 1 false maxPower) (power - maxPower)
termination_by power
decreasing_by simp only [maxPower] at *; omega

/-- The double `significand * 10 ^ power`; `none` beyond the largest double. -/
def scaled? (significand : Nat) (power : Int) : Option Float :=
  let value := (UInt64.ofNat significand).toFloat
  if power < 0 then some (divideByPower value power.natAbs)
  else if power.toNat ≤ maxPower then
    let product := value * Float.ofScientific 1 false power.toNat
    if product.isInf then none else some product
  else if value == 0.0 then some value
  else none

/-- A double with its sign, or no value. -/
def ofDouble? (isNegative : Bool) : Option Float → Json
  | none => unreadable
  | some value => double (if isNegative then -value else value).toBits

/-- Takes the digits that fit a word into `significand`; gives it with the number of digits taken
and the number of digits after them. -/
def leading (significand taken : Nat) : List Char → Nat × Nat × Nat
  | [] => (significand, taken, 0)
  | c :: rest =>
    let next := 10 * significand + (c.toNat - '0'.toNat)
    if next < Nat.pow 2 64 then leading next (taken + 1) rest
    else (significand, taken, rest.length + 1)

/-- The value of the digits of an exponent, which stops growing above 2 ^ 31 - 1. -/
def exponentValue (digits : List Char) : Nat :=
  digits.foldl (fun acc c => min (Nat.pow 2 31) (10 * acc + (c.toNat - '0'.toNat))) 0

/-- The value of a number, from the parts of its text: the digits before the point, the digits
after it, and the sign and the digits of the exponent. -/
def ofParts (isNegative : Bool) (whole : List Char) (fraction : Option (List Char))
    (exponent : Option (Bool × List Char)) : Json :=
  let (wholeSignificand, _, dropped) := leading 0 0 whole
  match fraction, exponent with
  | none, none =>
    if dropped ≠ 0 then ofDouble? isNegative (scaled? wholeSignificand dropped)
    else if !isNegative then natural wholeSignificand
    else if 1 ≤ wholeSignificand && wholeSignificand ≤ Nat.pow 2 63 then negative wholeSignificand
    else ofDouble? isNegative (scaled? wholeSignificand 0)
  | _, _ =>
    let (significand, taken, _) := leading wholeSignificand 0 (fraction.getD [])
    let power := (dropped : Int) - taken
    match exponent with
    | none => ofDouble? isNegative (scaled? significand power)
    | some (exponentNegative, digits) =>
      let value := exponentValue digits
      if value ≤ Nat.pow 2 31 - 1 then
        ofDouble? isNegative
          (scaled? significand (if exponentNegative then power - value else power + value))
      else if significand ≠ 0 && !exponentNegative then unreadable
      else ofDouble? isNegative (some 0.0)

end ScheduleExplorer.Json
