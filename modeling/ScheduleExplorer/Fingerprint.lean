/-!
# Fingerprints

A state is written as a list of bytes, and the fingerprint is the SipHash of that list with one
compression round, three finalization rounds and a zero key. The encoding of each kind of value
comes first; the hash knows only bytes.
-/

namespace ScheduleExplorer.Fingerprint

/-- The bytes that stand for a state. -/
abbrev Bytes := List UInt8

/-- The lowest `count` bytes of a number, lowest first. -/
def littleEndian : Nat → Nat → Bytes
  | 0, _ => []
  | count + 1, n => UInt8.ofNat n :: littleEndian count (n / 256)

/-- A number in eight bytes. -/
def ofNat (n : Nat) : Bytes :=
  littleEndian 8 n

/-- A word in eight bytes. -/
def ofWord (word : UInt64) : Bytes :=
  ofNat word.toNat

/-- A truth value in one byte. -/
def ofBool (b : Bool) : Bytes :=
  [if b then 1 else 0]

/-- A text: its UTF-8 bytes and a byte that UTF-8 never holds. -/
def ofString (s : String) : Bytes :=
  s.toUTF8.toList ++ [0xFF]

/-- An optional value: zero, or one and the value. -/
def ofOption {α : Type} (encode : α → Bytes) : Option α → Bytes
  | none => ofNat 0
  | some value => ofNat 1 ++ encode value

/-- A list: its length and its values. -/
def ofList {α : Type} (encode : α → Bytes) (values : List α) : Bytes :=
  ofNat values.length ++ values.flatMap encode

/-! ### The hash -/

/-- The four words that the hash works on. -/
structure Lanes where
  v0 : UInt64
  v1 : UInt64
  v2 : UInt64
  v3 : UInt64

/-- Rotates a word to the left. -/
def rotateLeft (word amount : UInt64) : UInt64 :=
  (word <<< amount) ||| (word >>> (64 - amount))

namespace Lanes

/-- The words for a zero key. -/
def initial : Lanes :=
  ⟨0x736f6d6570736575, 0x646f72616e646f6d, 0x6c7967656e657261, 0x7465646279746573⟩

/-- One round. -/
def round (s : Lanes) : Lanes :=
  let v0 := s.v0 + s.v1
  let v1 := rotateLeft s.v1 13 ^^^ v0
  let v0 := rotateLeft v0 32
  let v2 := s.v2 + s.v3
  let v3 := rotateLeft s.v3 16 ^^^ v2
  let v0 := v0 + v3
  let v3 := rotateLeft v3 21 ^^^ v0
  let v2 := v2 + v1
  let v1 := rotateLeft v1 17 ^^^ v2
  let v2 := rotateLeft v2 32
  ⟨v0, v1, v2, v3⟩

/-- Takes in a word of the message. -/
def absorb (s : Lanes) (word : UInt64) : Lanes :=
  let s := { s with v3 := s.v3 ^^^ word }
  let s := s.round
  { s with v0 := s.v0 ^^^ word }

/-- The hash value after the last word. -/
def finish (s : Lanes) : UInt64 :=
  let s := { s with v2 := s.v2 ^^^ 0xFF }
  let s := s.round.round.round
  s.v0 ^^^ s.v1 ^^^ s.v2 ^^^ s.v3

end Lanes

/-- Takes in bytes: `word` holds the `count` bytes that do not fill a word yet, and `length` is the
number of bytes before them. The last word ends with the length of the message. -/
def absorbBytes (s : Lanes) (word : UInt64) (count length : Nat) : Bytes → UInt64
  | [] => (s.absorb (word ||| (UInt64.ofNat (length + count) <<< 56))).finish
  | byte :: rest =>
    let word := word ||| (byte.toUInt64 <<< UInt64.ofNat (8 * count))
    if count = 7 then absorbBytes (s.absorb word) 0 0 (length + 8) rest
    else absorbBytes s word (count + 1) length rest

/-- The fingerprint of a list of bytes. -/
def digest (bytes : Bytes) : UInt64 :=
  absorbBytes Lanes.initial 0 0 0 bytes

end ScheduleExplorer.Fingerprint
