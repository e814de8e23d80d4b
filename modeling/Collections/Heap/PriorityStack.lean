import Collections.Heap.PriorityQueue

/-!
# Priority stacks

A stack that serves the highest priority first and, among equal priorities, the
entry pushed last.  Entries are numbered by 64-bit words as they are pushed and
ranked by their priority and then by their number; the numbering starts again
whenever the stack becomes empty.
-/

namespace Collections

universe u v

structure PriorityStack.Entry (α : Type u) (π : Type v) where
  priority : π
  sequence : UInt64
  value : α
  deriving Repr

/-- Entries are compared by priority, then by number. -/
instance {α : Type u} {π : Type v} [Ord π] : Ord (PriorityStack.Entry α π) where
  compare left right :=
    (compare left.priority right.priority).then (compare left.sequence right.sequence)

structure PriorityStack (α : Type u) (π : Type v) where
  queue : PriorityQueue (PriorityStack.Entry α π)
  nextSequence : UInt64
  deriving Repr

namespace PriorityStack

variable {α : Type u} {π : Type v}

def empty : PriorityStack α π :=
  ⟨.empty .descending, 0⟩

instance : Inhabited (PriorityStack α π) := ⟨empty⟩

def length (stack : PriorityStack α π) : Nat :=
  stack.queue.length

def isEmpty (stack : PriorityStack α π) : Bool :=
  stack.queue.isEmpty

/-- The values with their priorities, in the order of the heap. -/
def toList (stack : PriorityStack α π) : List (α × π) :=
  stack.queue.toList.map fun entry => (entry.value, entry.priority)

def peek? (stack : PriorityStack α π) : Option α :=
  stack.queue.peek?.map Entry.value

def peekPriority? (stack : PriorityStack α π) : Option π :=
  stack.queue.peek?.map Entry.priority

def clear (stack : PriorityStack α π) : PriorityStack α π :=
  ⟨stack.queue.clear, 0⟩

section Ordered

variable [Ord π]

def push (stack : PriorityStack α π) (value : α) (priority : π) : PriorityStack α π :=
  ⟨stack.queue.push ⟨priority, stack.nextSequence, value⟩, stack.nextSequence + 1⟩

def popWithPriority (stack : PriorityStack α π) : Option (α × π) × PriorityStack α π :=
  match stack.queue.pop with
  | (some entry, rest) =>
    (some (entry.value, entry.priority), ⟨rest, if rest.isEmpty then 0 else stack.nextSequence⟩)
  | (none, rest) => (none, ⟨rest, stack.nextSequence⟩)

def pop (stack : PriorityStack α π) : Option α × PriorityStack α π :=
  let (popped, rest) := stack.popWithPriority
  (popped.map Prod.fst, rest)

end Ordered

instance [Literal α] [Literal π] : Literal (PriorityStack α π) where
  literal stack := Literal.list stack.toList

end PriorityStack

end Collections
