/-!
# Blank characters

The characters with the Unicode property White_Space, and texts without the blanks
around them.
-/

namespace Collections.Text

/-- The characters with the property White_Space, as first and last of each run. -/
def blankRuns : List (Nat × Nat) :=
  [(0x0009, 0x000d), (0x0020, 0x0020), (0x0085, 0x0085), (0x00a0, 0x00a0), (0x1680, 0x1680),
    (0x2000, 0x200a), (0x2028, 0x2029), (0x202f, 0x202f), (0x205f, 0x205f), (0x3000, 0x3000)]

def isBlank (character : Char) : Bool :=
  blankRuns.any fun run => run.1 ≤ character.toNat && character.toNat ≤ run.2

/-- The characters without the blanks before the first and behind the last one
that is not blank. -/
def trimBlanks (text : List Char) : List Char :=
  ((text.dropWhile isBlank).reverse.dropWhile isBlank).reverse

def trim (text : String) : String :=
  String.ofList (trimBlanks text.toList)

end Collections.Text
