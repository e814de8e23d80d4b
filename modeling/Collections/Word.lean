/-!
# Arithmetic on words

Products of 64-bit words that do not wrap: either the product is refused when it
does not fit, or the greatest word takes its place.  A product has wrapped exactly
when dividing it by one factor does not give the other factor back.
-/

namespace Collections.Word

/-- The greatest word. -/
def greatest : UInt64 := 0 - 1

/-- The number of bytes that no single object can exceed. -/
def largestObject : UInt64 := greatest >>> 1

def checkedMul (left right : UInt64) : Option UInt64 :=
  let product := left * right
  if left = 0 ∨ product / left = right then some product else none

def saturatingMul (left right : UInt64) : UInt64 :=
  (checkedMul left right).getD greatest

end Collections.Word
