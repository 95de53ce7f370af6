import ScheduleExplorer.Json
import ScheduleExplorer.Decimal.Shortest

/-!
# Writing JSON text

The compact form, without blanks. Doubles are written with the fewest digits that read back.
-/

namespace ScheduleExplorer.Json

/-- The double with the given bits. A value between 1e-5 and 1e16 is positional and has a point;
any other has one digit before the point and an exponent. -/
def doubleText (bits : UInt64) : String :=
  match Decimal.Binary64.ofBits? bits with
  | none => "null"
  | some value =>
    let sign := if value.negative then "-" else ""
    if value.mantissa = 0 then sign ++ "0.0"
    else
      let scaled := Decimal.shortest value
      let digits := toString scaled.digits
      let point : Int := digits.length + scaled.power
      sign ++
        if 0 ≤ scaled.power && point ≤ 16 then
          digits ++ "".pushn '0' scaled.power.toNat ++ ".0"
        else if 0 < point && point ≤ 16 then
          (digits.take point.toNat).toString ++ "." ++ (digits.drop point.toNat).toString
        else if -5 < point && point ≤ 0 then
          "0." ++ "".pushn '0' (-point).toNat ++ digits
        else
          let fraction := if digits.length = 1 then "" else "." ++ (digits.drop 1).toString
          (digits.take 1).toString ++ fraction ++ "e" ++ toString (point - 1)

/-- One hexadecimal digit, in lower case. -/
def hexChar (n : Nat) : Char :=
  Nat.digitChar (n % 16)

/-- A character inside a string: quotes, backslashes and control characters are escaped. -/
def escapeChar (c : Char) : List Char :=
  match c with
  | '"' => ['\\', '"']
  | '\\' => ['\\', '\\']
  | '\n' => ['\\', 'n']
  | '\r' => ['\\', 'r']
  | '\t' => ['\\', 't']
  | '\x08' => ['\\', 'b']
  | '\x0c' => ['\\', 'f']
  | c =>
    if c.toNat < 0x20 then ['\\', 'u', '0', '0', hexChar (c.toNat / 16), hexChar c.toNat]
    else [c]

/-- A string with its quotes. -/
def quote (s : String) : String :=
  String.ofList ('"' :: s.toList.flatMap escapeChar ++ ['"'])

mutual

/-- The compact text of a value. -/
def render : Json → String
  | null => "null"
  | bool true => "true"
  | bool false => "false"
  | natural value => toString value
  | negative magnitude => "-" ++ toString magnitude
  | double bits => doubleText bits
  | string value => quote value
  | array items => "[" ++ renderItems items ++ "]"
  | object fields => "\x7b" ++ renderFields fields ++ "\x7d"
  | unreadable => "null"

/-- The items of an array, separated by commas. -/
def renderItems : List Json → String
  | [] => ""
  | [item] => render item
  | item :: rest => render item ++ "," ++ renderItems rest

/-- The fields of an object, separated by commas. -/
def renderFields : List (String × Json) → String
  | [] => ""
  | [(name, value)] => quote name ++ ":" ++ render value
  | (name, value) :: rest => quote name ++ ":" ++ render value ++ "," ++ renderFields rest

end

end ScheduleExplorer.Json
