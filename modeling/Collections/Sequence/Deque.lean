import Collections.Cursor
import Collections.Step

/-!
# Double-ended queues

A ring of slots whose number is a power of two, so that an offset from the head
is wrapped by masking.  The elements occupy the `length` slots from the head on
and all other slots are empty.  A push onto a full ring first doubles it and lays
the elements out again from slot zero.
-/

namespace Collections

universe u

structure Deque (α : Type u) where
  slots : Array (Option α)
  head : Nat
  length : Nat
  /-- One less than the number of slots. -/
  mask : Nat
  deriving Repr

namespace Deque

variable {α : Type u}

/-- The number of slots of a deque that is made without a wish for more. -/
def initialCapacity : Nat := 8

/-- An empty ring with the least power of two of slots that holds the wanted number. -/
def withCapacity (capacity : Nat) : Deque α :=
  let size := (max capacity 1).nextPowerOfTwo
  ⟨Array.replicate size none, 0, 0, size - 1⟩

def empty : Deque α :=
  withCapacity initialCapacity

instance : Inhabited (Deque α) := ⟨empty⟩

def isEmpty (deque : Deque α) : Bool :=
  deque.length == 0

def capacity (deque : Deque α) : Nat :=
  deque.slots.size

/-- The slot at an offset from the head. -/
def slot (deque : Deque α) (offset : Nat) : Nat :=
  (deque.head + offset) &&& deque.mask

/-- What a slot holds. -/
def slotValue? (deque : Deque α) (slot : Nat) : Option α :=
  deque.slots[slot]?.join

def get? (deque : Deque α) (index : Nat) : Option α :=
  if index < deque.length then deque.slotValue? (deque.slot index) else none

def front? (deque : Deque α) : Option α :=
  deque.get? 0

def back? (deque : Deque α) : Option α :=
  if deque.length = 0 then none else deque.get? (deque.length - 1)

/-- The elements from front to back. -/
def toList (deque : Deque α) : List α :=
  (List.range deque.length).filterMap deque.get?

/-- Twice the slots, with the elements laid out from slot zero. -/
def grow (deque : Deque α) : Deque α :=
  { slots := Array.ofFn fun target : Fin (deque.capacity * 2) => deque.get? target
    head := 0
    length := deque.length
    mask := deque.capacity * 2 - 1 }

/-- Makes room for one more element. -/
def reserve (deque : Deque α) : Step (Deque α) Unit :=
  if deque.length = deque.capacity then
    ⟨deque.grow, (), [.dequeGrown (deque.capacity * 2)]⟩
  else
    .quiet deque ()

def pushBack (deque : Deque α) (value : α) : Step (Deque α) Unit :=
  deque.reserve.andThen fun _ roomy =>
    .quiet
      { roomy with
        slots := roomy.slots.setIfInBounds (roomy.slot roomy.length) (some value)
        length := roomy.length + 1 } ()

def pushFront (deque : Deque α) (value : α) : Step (Deque α) Unit :=
  deque.reserve.andThen fun _ roomy =>
    let head := (roomy.head + roomy.mask) &&& roomy.mask
    .quiet
      { roomy with
        slots := roomy.slots.setIfInBounds head (some value)
        head := head
        length := roomy.length + 1 } ()

def popFront (deque : Deque α) : Option α × Deque α :=
  if deque.length = 0 then
    (none, deque)
  else
    (deque.slotValue? deque.head,
      { deque with
        slots := deque.slots.setIfInBounds deque.head none
        head := (deque.head + 1) &&& deque.mask
        length := deque.length - 1 })

def popBack (deque : Deque α) : Option α × Deque α :=
  if deque.length = 0 then
    (none, deque)
  else
    let last := deque.slot (deque.length - 1)
    (deque.slotValue? last,
      { deque with
        slots := deque.slots.setIfInBounds last none
        length := deque.length - 1 })

/-- Changes the element at an index, if there is one, and returns what it was. -/
def modify (deque : Deque α) (index : Nat) (change : α → α) : Option α × Deque α :=
  if index < deque.length then
    let place := deque.slot index
    match deque.slotValue? place with
    | some value =>
      (some value, { deque with slots := deque.slots.setIfInBounds place (some (change value)) })
    | none => (none, deque)
  else
    (none, deque)

/-- Writes a value over the element at an index and tells whether there is one. -/
def replace (deque : Deque α) (index : Nat) (value : α) : Bool × Deque α :=
  let (former, written) := deque.modify index fun _ => value
  (former.isSome, written)

/-- Empties the first `count` slots from the head on. -/
def vacate (deque : Deque α) (count : Nat) : Deque α :=
  (List.range count).foldl (fun current offset =>
    { current with slots := current.slots.setIfInBounds (current.slot offset) none }) deque

/-- Drops all elements and keeps the number of slots. -/
def clear (deque : Deque α) : Deque α :=
  { deque.vacate deque.length with head := 0, length := 0 }

/-- Pushes the items onto the back, one after the other. -/
def extend (deque : Deque α) (items : List α) : Step (Deque α) Unit :=
  Step.run pushBack deque items

def ofList (items : List α) : Step (Deque α) Unit :=
  empty.extend items

def contains [BEq α] (deque : Deque α) (value : α) : Bool :=
  deque.toList.any (· == value)

/-- Equal deques hold matching elements in the same order, wherever their heads are. -/
instance [BEq α] : BEq (Deque α) where
  beq left right := left.length == right.length && left.toList == right.toList

instance [Literal α] : Literal (Deque α) where
  literal deque := Literal.list deque.toList

/-- A walk over a deque: the offsets from `front` up to, not including, `back` are
still to come. -/
structure Walk (α : Type u) where
  deque : Deque α
  front : Nat
  back : Nat

def walk (deque : Deque α) : Walk α :=
  ⟨deque, 0, deque.length⟩

namespace Walk

def remaining (walk : Walk α) : Nat :=
  walk.back - walk.front

def next (walk : Walk α) : Option α × Walk α :=
  if walk.front = walk.back then
    (none, walk)
  else
    (walk.deque.get? walk.front, { walk with front := walk.front + 1 })

def nextBack (walk : Walk α) : Option α × Walk α :=
  if walk.front = walk.back then
    (none, walk)
  else
    (walk.deque.get? (walk.back - 1), { walk with back := walk.back - 1 })

instance : DoubleEndedCursor (Walk α) α where
  remaining := remaining
  next := next
  nextBack := nextBack

end Walk

end Deque

end Collections
