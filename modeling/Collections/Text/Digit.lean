/-!
# Decimal digits

The ten digits of ASCII and their values.
-/

namespace Collections.Text

def digit? (character : Char) : Option Nat :=
  if '0' ≤ character ∧ character ≤ '9' then some (character.toNat - '0'.toNat) else none

def isDigit (character : Char) : Bool :=
  (digit? character).isSome

end Collections.Text
