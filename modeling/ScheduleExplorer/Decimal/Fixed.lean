import ScheduleExplorer.Decimal.Binary64

/-!
# A fixed number of decimal places

The exact value of a double, rounded once to the wanted number of places with ties to even.
-/

namespace ScheduleExplorer.Decimal

/-- The text of a nonnegative double with `places` decimal places, `places` being positive. -/
def fixed (places : Nat) (value : Binary64) : String :=
  let scaled := roundQuotient (value.mantissa * scaleNum value.exponent places)
    (scaleDen value.exponent places)
  let whole := toString (scaled / Nat.pow 10 places)
  let rest := toString (scaled % Nat.pow 10 places)
  whole ++ "." ++ "".pushn '0' (places - rest.length) ++ rest

end ScheduleExplorer.Decimal
