import ScheduleExplorer.Json.Number

/-!
# Reading JSON text

`Json.parse?` accepts one JSON value with blanks around it and nothing else. A token that is well
formed but denotes no value becomes `Json.unreadable`, so that a reader fails only when it uses it.
-/

namespace ScheduleExplorer.Json

/-- Drops the blanks that JSON allows between tokens. -/
def skipBlanks (s : List Char) : List Char :=
  s.dropWhile fun c => c == ' ' || c == '\n' || c == '\t' || c == '\r'

/-- The value of one hexadecimal digit. -/
def hexDigit? (c : Char) : Option Nat :=
  if c.isDigit then some (c.toNat - '0'.toNat)
  else if 'a' ≤ c && c ≤ 'f' then some (c.toNat - 'a'.toNat + 10)
  else if 'A' ≤ c && c ≤ 'F' then some (c.toNat - 'A'.toNat + 10)
  else none

/-- Reads four hexadecimal digits. -/
def hexUnit? : List Char → Option (Nat × List Char)
  | a :: b :: c :: d :: rest => do
    let a ← hexDigit? a
    let b ← hexDigit? b
    let c ← hexDigit? c
    let d ← hexDigit? d
    pure (((a * 16 + b) * 16 + c) * 16 + d, rest)
  | _ => none

/-- The character that a one-letter escape stands for. -/
def shortEscape? : Char → Option Char
  | '"' => some '"'
  | '\\' => some '\\'
  | '/' => some '/'
  | 'b' => some '\x08'
  | 'f' => some '\x0c'
  | 'n' => some '\n'
  | 'r' => some '\r'
  | 't' => some '\t'
  | _ => none

/-- Reads the rest of an escape that begins with a unit `\uXXXX`: the character, or `none` for half
of a surrogate pair, and the text after it. -/
def escapedUnit? (s : List Char) : Option (Option Char × List Char) := do
  let (unit, rest) ← hexUnit? s
  if 0xD800 ≤ unit && unit ≤ 0xDBFF then
    match rest with
    | '\\' :: 'u' :: tail =>
      let (second, afterPair) ← hexUnit? tail
      if 0xDC00 ≤ second && second ≤ 0xDFFF then
        pure (some (Char.ofNat (0x10000 + (unit - 0xD800) * 0x400 + (second - 0xDC00))), afterPair)
      else pure (none, rest)
    | _ => pure (none, rest)
  else if 0xDC00 ≤ unit && unit ≤ 0xDFFF then pure (none, rest)
  else pure (some (Char.ofNat unit), rest)

/-- Reads a string after its opening quote: its text, or `none` if it holds half of a surrogate
pair, and what follows the closing quote. `read` holds the characters so far, last first. -/
def stringBody? : Nat → Option (List Char) → List Char → Option (Option String × List Char)
  | 0, _, _ => none
  | fuel + 1, read, s =>
    match s with
    | [] => none
    | '"' :: rest => some (read.map fun cs => String.ofList cs.reverse, rest)
    | '\\' :: 'u' :: rest => do
      let (char, rest) ← escapedUnit? rest
      stringBody? fuel (do let cs ← read; let c ← char; pure (c :: cs)) rest
    | '\\' :: c :: rest => do
      let char ← shortEscape? c
      stringBody? fuel (read.map (char :: ·)) rest
    | c :: rest => if c.toNat < 0x20 then none else stringBody? fuel (read.map (c :: ·)) rest

/-- Reads a string after its opening quote. -/
def stringRest? (s : List Char) : Option (Option String × List Char) :=
  stringBody? (s.length + 1) (some []) s

/-- Splits off the leading digits, of which there has to be one. -/
def digits? (s : List Char) : Option (List Char × List Char) :=
  let digits := s.takeWhile Char.isDigit
  if digits.isEmpty then none else some (digits, s.dropWhile Char.isDigit)

/-- Reads the digits before the point: a zero stands alone. -/
def wholeDigits? (s : List Char) : Option (List Char × List Char) := do
  let (digits, rest) ← digits? s
  if digits.head? = some '0' && 1 < digits.length then none else pure (digits, rest)

/-- Reads the sign and the digits of an exponent. -/
def exponentDigits? (s : List Char) : Option ((Bool × List Char) × List Char) := do
  let (isNegative, s) := match s with
    | '+' :: rest => (false, rest)
    | '-' :: rest => (true, rest)
    | _ => (false, s)
  let (digits, rest) ← digits? s
  pure ((isNegative, digits), rest)

/-- Reads a number. -/
def number? (s : List Char) : Option (Json × List Char) := do
  let (isNegative, s) := match s with
    | '-' :: rest => (true, rest)
    | _ => (false, s)
  let (whole, s) ← wholeDigits? s
  let (fraction, s) ← match s with
    | '.' :: rest => do
      let (digits, rest) ← digits? rest
      pure (some digits, rest)
    | _ => pure (none, s)
  let (exponent, s) ← match s with
    | c :: rest =>
      if c = 'e' || c = 'E' then do
        let (parts, rest) ← exponentDigits? rest
        pure (some parts, rest)
      else pure (none, s)
    | [] => pure (none, s)
  pure (ofParts isNegative whole fraction exponent, s)

/-- An object from its fields in order; a field name with half of a surrogate pair makes the whole
object unreadable. -/
def ofFields (fields : List (Option String × Json)) : Json :=
  match fields.mapM fun (name, value) => name.map fun name => (name, value) with
  | some fields => object fields
  | none => unreadable

mutual

/-- Reads a value that begins at the first character. -/
def value? : Nat → List Char → Option (Json × List Char)
  | 0, _ => none
  | fuel + 1, s =>
    match s with
    | 'n' :: 'u' :: 'l' :: 'l' :: rest => some (null, rest)
    | 't' :: 'r' :: 'u' :: 'e' :: rest => some (bool true, rest)
    | 'f' :: 'a' :: 'l' :: 's' :: 'e' :: rest => some (bool false, rest)
    | '"' :: rest => do
      let (text, rest) ← stringRest? rest
      pure ((text.map string).getD unreadable, rest)
    | '[' :: rest =>
      match skipBlanks rest with
      | ']' :: rest => some (array [], rest)
      | rest => do
        let (items, rest) ← itemsRest? fuel [] rest
        pure (array items, rest)
    | '{' :: rest =>
      match skipBlanks rest with
      | '}' :: rest => some (object [], rest)
      | rest => do
        let (fields, rest) ← fieldsRest? fuel [] rest
        pure (ofFields fields, rest)
    | _ => number? s

/-- Reads the items of an array up to its bracket; `read` holds the earlier ones, last first. -/
def itemsRest? : Nat → List Json → List Char → Option (List Json × List Char)
  | 0, _, _ => none
  | fuel + 1, read, s => do
    let (item, rest) ← value? fuel s
    match skipBlanks rest with
    | ']' :: rest => pure ((item :: read).reverse, rest)
    | ',' :: rest => itemsRest? fuel (item :: read) (skipBlanks rest)
    | _ => none

/-- Reads the fields of an object up to its brace; `read` holds the earlier ones, last first. -/
def fieldsRest? : Nat → List (Option String × Json) → List Char →
    Option (List (Option String × Json) × List Char)
  | 0, _, _ => none
  | fuel + 1, read, s =>
    match s with
    | '"' :: rest => do
      let (name, rest) ← stringRest? rest
      match skipBlanks rest with
      | ':' :: rest => do
        let (value, rest) ← value? fuel (skipBlanks rest)
        match skipBlanks rest with
        | '}' :: rest => pure (((name, value) :: read).reverse, rest)
        | ',' :: rest => fieldsRest? fuel ((name, value) :: read) (skipBlanks rest)
        | _ => none
      | _ => none
    | _ => none

end

/-- Reads a text that holds one JSON value. -/
def parse? (text : String) : Option Json := do
  let s := text.toList
  let (value, rest) ← value? (2 * s.length + 2) (skipBlanks s)
  if (skipBlanks rest).isEmpty then pure value else none

end ScheduleExplorer.Json
