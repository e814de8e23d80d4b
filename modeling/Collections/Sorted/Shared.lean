import Collections.Sorted.Collection

/-!
# Shared sorted lists

A sorted list that several clients use.  Every call holds the lock of the list
for its whole duration, so calls are steps of one sequence, and a block of
operations run under the lock is a single step of it.
-/

namespace Collections

universe u v

structure SharedSortedList (α : Type u) where
  content : SortedList α
  deriving Repr

/-- Whether some client holds the lock. -/
inductive Lock where
  | free
  | held
  deriving DecidableEq, Repr

namespace SharedSortedList

variable {α : Type u} {ρ : Type v}

def empty (direction : Direction) : SharedSortedList α :=
  ⟨.empty direction⟩

def ofSortedList (list : SortedList α) : SharedSortedList α :=
  ⟨list⟩

def toSortedList (shared : SharedSortedList α) : SortedList α :=
  shared.content

def toList (shared : SharedSortedList α) : List α :=
  shared.content.toList

/-- Runs a block of operations on the list as one step. -/
def withLock (shared : SharedSortedList α) (block : SortedList α → Step (SortedList α) ρ) :
    Step (SharedSortedList α) ρ :=
  let step := block shared.content
  ⟨⟨step.state⟩, step.result, step.log⟩

instance [Ord α] : SortedCollection (SharedSortedList α) α where
  length shared := shared.content.length
  direction shared := shared.content.direction
  get shared := shared.content.get
  find? shared := shared.content.find?
  insert shared item := shared.withLock (SortedCollection.insert · item)
  set shared index value := shared.withLock (SortedCollection.set · index value)
  remove shared item := shared.withLock (SortedCollection.remove · item)
  removeAt shared index := shared.withLock (SortedCollection.removeAt · index)
  reverse shared := shared.withLock SortedCollection.reverse
  clear shared := shared.withLock SortedCollection.clear

/-- The content can be shown only while nobody holds the lock. -/
def describe [Literal α] (shared : SharedSortedList α) : Lock → String
  | .free => "SyncSortedList(" ++ literal shared.content ++ ")"
  | .held => "SyncSortedList \x7b <locked> \x7d"

end SharedSortedList

end Collections
