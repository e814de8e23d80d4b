import Collections.Direction
import Collections.Heap.Sift

/-!
# Priority queues

A binary heap that serves the element that comes first in its direction: the
least one ascending, the greatest one descending.
-/

namespace Collections

universe u

structure PriorityQueue (α : Type u) where
  direction : Direction
  heap : Array α
  deriving Repr

namespace PriorityQueue

variable {α : Type u}

def empty (direction : Direction) : PriorityQueue α :=
  ⟨direction, #[]⟩

instance : Inhabited (PriorityQueue α) := ⟨empty .ascending⟩

def length (queue : PriorityQueue α) : Nat :=
  queue.heap.size

def isEmpty (queue : PriorityQueue α) : Bool :=
  queue.heap.isEmpty

/-- The elements in the order of the heap. -/
def toList (queue : PriorityQueue α) : List α :=
  queue.heap.toList

/-- The element that is served next. -/
def peek? (queue : PriorityQueue α) : Option α :=
  queue.heap[0]?

def clear (queue : PriorityQueue α) : PriorityQueue α :=
  empty queue.direction

section Ordered

variable [Ord α]

def ofArray (direction : Direction) (items : Array α) : PriorityQueue α :=
  ⟨direction, Heap.heapify direction.precedes items⟩

def push (queue : PriorityQueue α) (item : α) : PriorityQueue α :=
  { queue with heap := Heap.push queue.direction.precedes queue.heap item }

def extend (queue : PriorityQueue α) (items : List α) : PriorityQueue α :=
  items.foldl push queue

def pop (queue : PriorityQueue α) : Option α × PriorityQueue α :=
  match Heap.pop? queue.direction.precedes queue.heap with
  | some (item, rest) => (some item, { queue with heap := rest })
  | none => (none, queue)

/-- The elements in the order in which they would be served. -/
def toSortedList (queue : PriorityQueue α) : List α :=
  Heap.drain queue.direction.precedes queue.heap

end Ordered

instance [Literal α] : Literal (PriorityQueue α) where
  literal queue :=
    Literal.record "PriorityQueue"
      [("criterion", literal queue.direction), ("heap", literal queue.heap)]

end PriorityQueue

end Collections
