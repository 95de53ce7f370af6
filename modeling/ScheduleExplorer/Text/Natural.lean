/-!
# Natural numbers in decimal

Readers for unsigned decimal text. A word is a number below 2 ^ 64; its text may begin with a
plus sign and with zeros.
-/

namespace ScheduleExplorer.Text

/-- The value of a run of ASCII digits that continues the digits with value `acc`; `none` at any
other character. -/
def digitsValue? (acc : Nat) : List Char → Option Nat
  | [] => some acc
  | c :: rest => if c.isDigit then digitsValue? (10 * acc + (c.toNat - '0'.toNat)) rest else none

/-- Reads a word: an optional plus sign and at least one ASCII digit. -/
def readWord? (s : List Char) : Option Nat :=
  let digits := match s with
    | '+' :: rest => rest
    | _ => s
  if digits.isEmpty then none else (digitsValue? 0 digits).filter (· < Nat.pow 2 64)

/-- Pads a text with blanks on the right to the given width. -/
def padRight (width : Nat) (s : String) : String :=
  s ++ "".pushn ' ' (width - s.length)

end ScheduleExplorer.Text
