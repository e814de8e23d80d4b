import Collections.Json.Variant

/-!
# Directions

An ordered collection runs upwards or downwards.  The direction alone decides
which of two elements comes first; the order of the elements themselves never
changes.
-/

namespace Collections

universe u

inductive Direction where
  | ascending
  | descending
  deriving DecidableEq, Repr, Inhabited

namespace Direction

variable {α : Type u} [Ord α]

/-- The order of two elements in this direction: `lt` when the first belongs
before the second. -/
def compare (direction : Direction) (left right : α) : Ordering :=
  match direction with
  | .ascending => Ord.compare left right
  | .descending => Ord.compare right left

/-- Whether the first of two elements belongs strictly before the second. -/
def precedes (direction : Direction) (left right : α) : Bool :=
  direction.compare left right == .lt

/-- Whether two neighbours may stand in this order. -/
def admits (direction : Direction) (left right : α) : Bool :=
  direction.compare left right != .gt

def reversed : Direction → Direction
  | .ascending => .descending
  | .descending => .ascending

def name : Direction → String
  | .ascending => "Ascending"
  | .descending => "Descending"

def all : List Direction := [.ascending, .descending]

instance : Literal Direction := ⟨name⟩

/-- The direction that a JSON text names. -/
def ofText (text : String) : Except Json.Fault Direction :=
  Json.readVariant (all.map fun direction => (direction.name, direction)) text

end Direction

end Collections
