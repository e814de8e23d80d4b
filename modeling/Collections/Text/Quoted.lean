/-!
# Quoted text

Messages and descriptions show a text between double quotes.  A quote and a
backslash are escaped with a backslash, the four common control characters by
their letter, and every other character below a space, and delete, by its
number in braces.  All other characters, the apostrophe included, stand for
themselves, so a quoted text ends at the first quote that is not escaped.
-/

namespace Collections.Text

/-- The digits of a number in lower-case hexadecimal, without padding. -/
def hexadecimal (value : Nat) : List Char :=
  Nat.toDigits 16 value

/-- One character in the form it has between quotes. -/
def quotedCharacter (character : Char) : List Char :=
  match character with
  | '"' => ['\\', '"']
  | '\\' => ['\\', '\\']
  | '\n' => ['\\', 'n']
  | '\r' => ['\\', 'r']
  | '\t' => ['\\', 't']
  | '\x00' => ['\\', '0']
  | other =>
    if other.toNat < 0x20 ∨ other.toNat = 0x7f then
      ['\\', 'u', '\x7b'] ++ hexadecimal other.toNat ++ ['\x7d']
    else
      [other]

/-- A text between double quotes. -/
def quoted (text : String) : String :=
  String.ofList (['"'] ++ text.toList.flatMap quotedCharacter ++ ['"'])

end Collections.Text
