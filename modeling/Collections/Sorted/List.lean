import Collections.Direction
import Collections.Fault
import Collections.Sorted.PartitionPoint
import Collections.Step

/-!
# Sorted lists

A list that stays ordered in its direction under every insertion and every write.
An element is inserted at its lower bound, that is before all elements equal to
it, so equal elements stack up with the newest in front.  A write that leaves the
element between its neighbours is done in place; any other takes the old element
out and inserts the new one.
-/

namespace Collections

universe u

structure SortedList (α : Type u) where
  direction : Direction
  items : Array α
  deriving Repr

namespace SortedList

variable {α : Type u}

def empty (direction : Direction) : SortedList α :=
  ⟨direction, #[]⟩

instance : Inhabited (SortedList α) := ⟨empty .ascending⟩

def length (list : SortedList α) : Nat :=
  list.items.size

def isEmpty (list : SortedList α) : Bool :=
  list.items.isEmpty

def toList (list : SortedList α) : List α :=
  list.items.toList

def first? (list : SortedList α) : Option α :=
  list.items[0]?

def last? (list : SortedList α) : Option α :=
  list.items.back?

/-- The element at an index below the length. -/
def get (list : SortedList α) (index : Nat) : Except Fault α :=
  match list.items[index]? with
  | some item => .ok item
  | none => .error (.outOfBounds index list.length)

/-- The element at an index that the caller vouches for. -/
def index (list : SortedList α) (index : Nat) : Except IndexViolation α :=
  match list.items[index]? with
  | some item => .ok item
  | none => .error ⟨list.length, index⟩

/-- Takes the element at an index out of the list. -/
def removeAt (list : SortedList α) (index : Nat) : Except Fault α × SortedList α :=
  if hindex : index < list.items.size then
    (.ok list.items[index], { list with items := list.items.eraseIdx index })
  else
    (.error (.outOfBounds index list.length), list)

/-- Turns the direction around.  The reversed items are in order again. -/
def reverse (list : SortedList α) : SortedList α :=
  ⟨list.direction.reversed, list.items.reverse⟩

def clear (list : SortedList α) : SortedList α :=
  empty list.direction

section Ordered

variable [Ord α]

/-- The given items in order; equal ones stay in the order they were given in. -/
def ofList (direction : Direction) (items : List α) : SortedList α :=
  ⟨direction, (items.mergeSort direction.admits).toArray⟩

/-- The number of elements that belong strictly before the item. -/
def lowerBound (list : SortedList α) (item : α) : Nat :=
  Sorted.partitionPoint (fun resident => list.direction.precedes resident item) list.items

theorem lowerBound_le_size (list : SortedList α) (item : α) :
    list.lowerBound item ≤ list.items.size :=
  Sorted.partitionPoint_le_size _ _

/-- Inserts at the lower bound and tells the position. -/
def insert (list : SortedList α) (item : α) : Nat × SortedList α :=
  (list.lowerBound item,
    { list with
      items := list.items.insertIdx (list.lowerBound item) item (list.lowerBound_le_size item) })

/-- Inserts the items one after the other. -/
def extend (list : SortedList α) (items : List α) : SortedList α :=
  items.foldl (fun current item => (current.insert item).2) list

/-- The least position of an element equal to the item. -/
def find? (list : SortedList α) (item : α) : Option Nat :=
  match list.items[list.lowerBound item]? with
  | some resident => if compare resident item = .eq then some (list.lowerBound item) else none
  | none => none

def contains (list : SortedList α) (item : α) : Bool :=
  (list.find? item).isSome

/-- Takes out the first element equal to the item and tells whether there was one. -/
def remove (list : SortedList α) (item : α) : Bool × SortedList α :=
  match list.find? item with
  | some position => (true, { list with items := list.items.eraseIdxIfInBounds position })
  | none => (false, list)

/-- Whether a value may stand between the neighbours of an index. -/
def fitsAt (list : SortedList α) (index : Nat) (value : α) : Bool :=
  (match index with
    | 0 => true
    | previous + 1 => list.items[previous]?.all (list.direction.admits · value))
  && list.items[index + 1]?.all (list.direction.admits value ·)

/-- Writes a value over the element at an index and tells where the value stands
afterwards.  Nothing happens when the two are equal. -/
def set (list : SortedList α) (index : Nat) (value : α) : Step (SortedList α) (Except Fault Nat) :=
  if hindex : index < list.items.size then
    if compare list.items[index] value = .eq then
      .quiet list (.ok index)
    else if list.fitsAt index value then
      .quiet { list with items := list.items.set index value } (.ok index)
    else
      let inserted := { list with items := list.items.eraseIdx index }.insert value
      ⟨inserted.2, .ok inserted.1, [.elementRepositioned index]⟩
  else
    .quiet list (.error (.outOfBounds index list.length))

end Ordered

/-- Equal lists have the same direction and, place by place, matching elements. -/
instance [BEq α] : BEq (SortedList α) where
  beq left right := left.items == right.items && left.direction == right.direction

instance [Literal α] : Literal (SortedList α) where
  literal list :=
    Literal.record "SortedList"
      [("criterion", literal list.direction), ("data", literal list.items)]

end SortedList

end Collections
