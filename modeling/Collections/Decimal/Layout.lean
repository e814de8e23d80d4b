import Collections.Decimal.Shortest

/-!
# Layout of decimals

A decimal is its digits and the power of ten of the first one.  Small powers are
written positionally, with a point that has a digit on either side; all others
with one digit before the point, if any follow, and a signed exponent.
-/

namespace Collections.Decimal

/-- The choices that the written form of a decimal leaves open. -/
structure Layout where
  /-- Least and greatest power of the first digit that is written positionally. -/
  lowestPositional : Int
  highestPositional : Int
  /-- Least number of digits of the exponent. -/
  exponentWidth : Nat

namespace Layout

/-- Digits whose first stands for `10 ^ power`, without an exponent. -/
def positional (digits : List Char) (power : Int) : List Char :=
  if power < 0 then
    ['0', '.'] ++ List.replicate (-power - 1).toNat '0' ++ digits
  else
    let whole := digits.take (power.toNat + 1)
    let rest := digits.drop (power.toNat + 1)
    whole ++ List.replicate (power.toNat + 1 - whole.length) '0' ++ ['.']
      ++ (if rest.isEmpty then ['0'] else rest)

variable (layout : Layout)

def scientific (digits : List Char) (power : Int) : List Char :=
  let exponent := Nat.toDigits 10 power.natAbs
  digits.take 1 ++ (if digits.length ≤ 1 then [] else ['.'] ++ digits.drop 1)
    ++ ['e', if power < 0 then '-' else '+']
    ++ List.replicate (layout.exponentWidth - exponent.length) '0' ++ exponent

def write (digits : List Char) (power : Int) : List Char :=
  if layout.lowestPositional ≤ power ∧ power ≤ layout.highestPositional then
    positional digits power
  else
    layout.scientific digits power

/-- The shortest decimal of a finite double, with its sign, that of zero included. -/
def writeDouble (value : Float) : String :=
  let bits := value.toBits
  let magnitude := Magnitude.ofBits bits
  let sign := if UInt64.size / 2 ≤ bits.toNat then ['-'] else []
  if magnitude.mantissa = 0 then
    String.ofList (sign ++ ['0', '.', '0'])
  else
    let (value, tens) := magnitude.shortest
    let digits := Nat.toDigits 10 value
    let significant := (digits.reverse.dropWhile (· = '0')).reverse
    String.ofList (sign ++ layout.write significant (tens + Int.ofNat digits.length - 1))

end Layout

end Collections.Decimal
