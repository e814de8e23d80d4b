import Collections.Cursor
import Collections.Literal

/-!
# Linked lists

A doubly linked list whose nodes live in one array and refer to each other by
their slots.  A node that is taken out joins a chain of free slots, linked through
`next`, and the next new node takes the slot that was freed last.
-/

namespace Collections

universe u

/-- A slot of the array: a live one holds a value, a free one does not. -/
structure LinkedList.Node (α : Type u) where
  value : Option α
  previous : Option Nat
  next : Option Nat
  deriving Repr

structure LinkedList (α : Type u) where
  nodes : Array (LinkedList.Node α)
  head : Option Nat
  tail : Option Nat
  free : Option Nat
  length : Nat
  deriving Repr

namespace LinkedList

variable {α : Type u}

def empty : LinkedList α :=
  ⟨#[], none, none, none, 0⟩

instance : Inhabited (LinkedList α) := ⟨empty⟩

def isEmpty (list : LinkedList α) : Bool :=
  list.length == 0

def clear (_list : LinkedList α) : LinkedList α :=
  empty

/-- The value in a slot, if the link leads to one. -/
def valueAt? (list : LinkedList α) (link : Option Nat) : Option α :=
  link.bind fun slot => list.nodes[slot]?.bind Node.value

def nextOf (list : LinkedList α) (slot : Nat) : Option Nat :=
  list.nodes[slot]?.bind Node.next

def previousOf (list : LinkedList α) (slot : Nat) : Option Nat :=
  list.nodes[slot]?.bind Node.previous

def front? (list : LinkedList α) : Option α :=
  list.valueAt? list.head

def back? (list : LinkedList α) : Option α :=
  list.valueAt? list.tail

/-- Puts a node into the slot that was freed last, or into a new one. -/
def allocate (list : LinkedList α) (node : Node α) : Nat × LinkedList α :=
  match list.free with
  | some slot =>
    (slot,
      { list with
        free := list.nextOf slot
        nodes := list.nodes.setIfInBounds slot node })
  | none => (list.nodes.size, { list with nodes := list.nodes.push node })

/-- Lets the node before a place, or else the head, lead to `target`. -/
def linkForward (list : LinkedList α) (before : Option Nat) (target : Option Nat) : LinkedList α :=
  match before with
  | some slot => { list with nodes := list.nodes.modify slot ({ · with next := target }) }
  | none => { list with head := target }

/-- Lets the node after a place, or else the tail, lead back to `target`. -/
def linkBackward (list : LinkedList α) (after : Option Nat) (target : Option Nat) : LinkedList α :=
  match after with
  | some slot => { list with nodes := list.nodes.modify slot ({ · with previous := target }) }
  | none => { list with tail := target }

def pushFront (list : LinkedList α) (value : α) : LinkedList α :=
  let (slot, grown) := list.allocate ⟨some value, none, list.head⟩
  let linked := grown.linkBackward list.head (some slot)
  { linked with head := some slot, length := list.length + 1 }

def pushBack (list : LinkedList α) (value : α) : LinkedList α :=
  let (slot, grown) := list.allocate ⟨some value, list.tail, none⟩
  let linked := grown.linkForward list.tail (some slot)
  { linked with tail := some slot, length := list.length + 1 }

/-- Takes the node in a slot out of the list, frees the slot and returns the value. -/
def release (list : LinkedList α) (slot : Nat) : Option α × LinkedList α :=
  let previous := list.previousOf slot
  let next := list.nextOf slot
  let unlinked := (list.linkForward previous next).linkBackward next previous
  (list.valueAt? (some slot),
    { unlinked with
      nodes := unlinked.nodes.setIfInBounds slot ⟨none, none, list.free⟩
      free := some slot
      length := list.length - 1 })

def popFront (list : LinkedList α) : Option α × LinkedList α :=
  match list.head with
  | some slot => list.release slot
  | none => (none, list)

def popBack (list : LinkedList α) : Option α × LinkedList α :=
  match list.tail with
  | some slot => list.release slot
  | none => (none, list)

/-- Writes a value over the one in a slot and tells whether there is one. -/
def replaceAt (list : LinkedList α) (link : Option Nat) (value : α) : Bool × LinkedList α :=
  match link, list.valueAt? link with
  | some slot, some _ =>
    (true, { list with nodes := list.nodes.modify slot ({ · with value := some value }) })
  | _, _ => (false, list)

def replaceFront (list : LinkedList α) (value : α) : Bool × LinkedList α :=
  list.replaceAt list.head value

def replaceBack (list : LinkedList α) (value : α) : Bool × LinkedList α :=
  list.replaceAt list.tail value

/-- The values met on the first `count` nodes from a link on, forwards. -/
def valuesFrom (list : LinkedList α) : Nat → Option Nat → List α
  | 0, _ => []
  | _ + 1, none => []
  | count + 1, some slot =>
    (list.valueAt? (some slot)).toList ++ list.valuesFrom count (list.nextOf slot)

/-- The values met on the first `count` nodes from a link on, backwards. -/
def valuesBackFrom (list : LinkedList α) : Nat → Option Nat → List α
  | 0, _ => []
  | _ + 1, none => []
  | count + 1, some slot =>
    (list.valueAt? (some slot)).toList ++ list.valuesBackFrom count (list.previousOf slot)

def toList (list : LinkedList α) : List α :=
  list.valuesFrom list.length list.head

def toReversedList (list : LinkedList α) : List α :=
  list.valuesBackFrom list.length list.tail

section Matching

variable [BEq α]

/-- The slot of the first match among the first `count` nodes from a link on. -/
def findFrom? (list : LinkedList α) (value : α) : Nat → Option Nat → Option Nat
  | 0, _ => none
  | _ + 1, none => none
  | count + 1, some slot =>
    if (list.valueAt? (some slot)).any (· == value) then some slot
    else list.findFrom? value count (list.nextOf slot)

/-- Takes out the first matching element and tells whether there was one. -/
def remove (list : LinkedList α) (value : α) : Bool × LinkedList α :=
  match list.findFrom? value list.length list.head with
  | some slot => (true, (list.release slot).2)
  | none => (false, list)

def contains (list : LinkedList α) (value : α) : Bool :=
  list.toList.any (· == value)

/-- Equal lists hold matching elements in the same order, whatever their slots. -/
instance : BEq (LinkedList α) where
  beq left right := left.length == right.length && left.toList == right.toList

end Matching

def extend (list : LinkedList α) (items : List α) : LinkedList α :=
  items.foldl pushBack list

def ofList (items : List α) : LinkedList α :=
  empty.extend items

instance [Literal α] : Literal (LinkedList α) where
  literal list := Literal.list list.toList

/-- A walk over a list from both ends, which meet when none remain. -/
structure Walk (α : Type u) where
  list : LinkedList α
  front : Option Nat
  back : Option Nat
  remaining : Nat

def walk (list : LinkedList α) : Walk α :=
  ⟨list, list.head, list.tail, list.length⟩

namespace Walk

def next (walk : Walk α) : Option α × Walk α :=
  match walk.remaining, walk.front with
  | remaining + 1, some slot =>
    (walk.list.valueAt? (some slot),
      { walk with front := walk.list.nextOf slot, remaining := remaining })
  | _, _ => (none, walk)

def nextBack (walk : Walk α) : Option α × Walk α :=
  match walk.remaining, walk.back with
  | remaining + 1, some slot =>
    (walk.list.valueAt? (some slot),
      { walk with back := walk.list.previousOf slot, remaining := remaining })
  | _, _ => (none, walk)

instance : DoubleEndedCursor (Walk α) α where
  remaining := remaining
  next := next
  nextBack := nextBack

end Walk

end LinkedList

end Collections
