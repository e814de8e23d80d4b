import Collections.Text.Digit

/-!
# Values read from a text

The form of an integer is an optional sign and at least one decimal digit; only a
type with negative values takes a minus sign.  A number outside the type is not
read at all, so it neither wraps nor is cut off.
-/

namespace Collections.Text

universe u

class Readable (α : Type u) where
  read? : List Char → Option α

/-- Appends digits to a number as long as it stays within a limit. -/
def readDigits? (limit total : Nat) : List Char → Option Nat
  | [] => some total
  | character :: digits =>
    match digit? character with
    | some digit =>
      if total * 10 + digit ≤ limit then readDigits? limit (total * 10 + digit) digits else none
    | none => none

/-- At least one digit, for a number within a limit. -/
def readMagnitude? (limit : Nat) (digits : List Char) : Option Nat :=
  if digits.isEmpty then none else readDigits? limit 0 digits

/-- A number from zero to a limit, with an optional plus sign. -/
def readUnsigned? (limit : Nat) (text : List Char) : Option Nat :=
  match text with
  | '+' :: digits => readMagnitude? limit digits
  | _ => readMagnitude? limit text

/-- A number from `-lowest` to `highest`, with an optional sign. -/
def readSigned? (lowest highest : Nat) (text : List Char) : Option Int :=
  match text with
  | '-' :: digits => (readMagnitude? lowest digits).map fun value => -Int.ofNat value
  | _ => (readUnsigned? highest text).map Int.ofNat

instance : Readable UInt64 where
  read? text := (readUnsigned? (UInt64.size - 1) text).map UInt64.ofNat

instance : Readable UInt8 where
  read? text := (readUnsigned? (UInt8.size - 1) text).map UInt8.ofNat

instance : Readable Int64 where
  read? text := (readSigned? (UInt64.size / 2) (UInt64.size / 2 - 1) text).map Int64.ofInt

instance : Readable Bool where
  read? text :=
    if text = ['t', 'r', 'u', 'e'] then some true
    else if text = ['f', 'a', 'l', 's', 'e'] then some false
    else none

instance : Readable String where
  read? text := some (String.ofList text)

end Collections.Text
