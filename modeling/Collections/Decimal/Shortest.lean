/-!
# Shortest decimals

A double stands for every real number that rounds to it.  Its shortest decimal
is the one with the fewest digits among these, and of two such decimals the
nearer, an even last digit deciding between equally near ones.  All comparisons
are between natural numbers, after both sides are multiplied out.
-/

namespace Collections.Decimal

/-- A power of a base, or one for a negative exponent: the negative powers of one side of
a comparison stand as positive ones on the other side. -/
def power (base : Nat) (exponent : Int) : Nat :=
  Nat.pow base exponent.toNat

/-- The number of the bits of a double that hold its fraction. -/
def fractionBits : Nat := 52

/-- A positive number `mantissa * 2 ^ exponent` together with the distance to
the double below it, which is halved at a power of two. -/
structure Magnitude where
  mantissa : Nat
  exponent : Int
  halvedBelow : Bool

/-- The magnitude of a finite double, read off its 64 bits. -/
def Magnitude.ofBits (bits : UInt64) : Magnitude :=
  let implicit := power 2 fractionBits
  let fraction := bits.toNat % implicit
  let biased := bits.toNat / implicit % 2048
  if biased = 0 then
    ⟨fraction, -1074, false⟩
  else
    ⟨implicit + fraction, Int.ofNat biased - 1075, fraction = 0 ∧ 1 < biased⟩

/-- Compares `left * 10 ^ tens` with `right * 2 ^ twos`. -/
def compareScaled (left : Nat) (tens : Int) (right : Nat) (twos : Int) : Ordering :=
  compare (left * power 10 tens * power 2 (-twos)) (right * power 2 twos * power 10 (-tens))

/-- The number of decimal digits of a natural number. -/
def digitCount (value : Nat) : Nat :=
  (Nat.toDigits 10 value).length

namespace Magnitude

variable (value : Magnitude)

/-- Whether `digits * 10 ^ tens` rounds to this magnitude.  The ends of the
interval belong to it when the mantissa is even. -/
def readsBack (digits : Nat) (tens : Int) : Bool :=
  let lower := 4 * value.mantissa - (if value.halvedBelow then 1 else 2)
  let upper := 4 * value.mantissa + 2
  let fromBelow := compareScaled digits tens lower (value.exponent - 2)
  let fromAbove := compareScaled digits tens upper (value.exponent - 2)
  if value.mantissa % 2 = 0 then
    fromBelow.isGE && fromAbove.isLE
  else
    fromBelow == .gt && fromAbove == .lt

/-- The power of ten that the first digit of the magnitude stands for. -/
def firstPlace : Int :=
  let numerator := value.mantissa * power 2 value.exponent
  let denominator := power 2 (-value.exponent)
  if denominator ≤ numerator then
    Int.ofNat (digitCount (numerator / denominator)) - 1
  else
    -Int.ofNat (digitCount ((denominator + numerator - 1) / numerator - 1))

/-- The greatest multiple of `10 ^ tens` that does not exceed the magnitude,
counted in that unit. -/
def floorOnGrid (tens : Int) : Nat :=
  value.mantissa * power 2 value.exponent * power 10 (-tens)
    / (power 10 tens * power 2 (-value.exponent))

/-- The decimal on the grid of `10 ^ tens` that reads back, if there is one: of
the two neighbours of the magnitude the nearer. -/
def onGrid? (tens : Int) : Option Nat :=
  let below := value.floorOnGrid tens
  match value.readsBack below tens, value.readsBack (below + 1) tens with
  | true, true =>
    match compareScaled (2 * below + 1) tens (2 * value.mantissa) value.exponent with
    | .lt => some (below + 1)
    | .gt => some below
    | .eq => some (below + below % 2)
  | true, false => some below
  | false, true => some (below + 1)
  | false, false => none

/-- The shortest decimal, as its digits and the power of ten of the last one.
Seventeen digits always suffice. -/
def shortest : Nat × Int :=
  let first := value.firstPlace
  let grids := (List.range 17).map fun places => first - Int.ofNat places
  match grids.findSome? fun tens => (value.onGrid? tens).map fun digits => (digits, tens) with
  | some found => found
  | none => (value.floorOnGrid (first - 17), first - 17)

end Magnitude

end Collections.Decimal
