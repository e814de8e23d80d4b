/-!
# Recency of slots

The order in which the slots of a table were used last.  Every slot has a link to
the slot used just after it and to the one used just before it, so that a slot can
be taken out of any place, or brought to the head, without a search.  A slot that
holds nothing is detached: it stays in the table and no link leads to it.
-/

namespace Collections

/-- The neighbours of a slot: the previous one is closer to the head. -/
structure Recency.Link where
  previous : Option Nat
  next : Option Nat
  deriving DecidableEq, Repr

def Recency.Link.detached : Recency.Link :=
  ⟨none, none⟩

/-- The slot used most recently is the head, the one used least recently the tail. -/
structure Recency where
  links : Array Recency.Link
  head : Option Nat
  tail : Option Nat
  length : Nat
  deriving Repr

namespace Recency

def empty : Recency :=
  ⟨#[], none, none, 0⟩

instance : Inhabited Recency := ⟨empty⟩

def nextOf (recency : Recency) (slot : Nat) : Option Nat :=
  recency.links[slot]?.bind Link.next

def previousOf (recency : Recency) (slot : Nat) : Option Nat :=
  recency.links[slot]?.bind Link.previous

/-- Adds a slot that is not in use. -/
def addSlot (recency : Recency) : Recency :=
  { recency with links := recency.links.push .detached }

/-- Lets the slot before a place, or else the head, lead to `target`. -/
def linkForward (recency : Recency) (before target : Option Nat) : Recency :=
  match before with
  | some slot => { recency with links := recency.links.modify slot ({ · with next := target }) }
  | none => { recency with head := target }

/-- Lets the slot after a place, or else the tail, lead back to `target`. -/
def linkBackward (recency : Recency) (after target : Option Nat) : Recency :=
  match after with
  | some slot => { recency with links := recency.links.modify slot ({ · with previous := target }) }
  | none => { recency with tail := target }

/-- Puts a detached slot at the head. -/
def pushHead (recency : Recency) (slot : Nat) : Recency :=
  let oldHead := recency.head
  let count := recency.length
  let placed := { recency with links := recency.links.setIfInBounds slot ⟨none, oldHead⟩ }
  { placed.linkBackward oldHead (some slot) with head := some slot, length := count + 1 }

/-- Takes a slot out of its place and detaches it. -/
def unlink (recency : Recency) (slot : Nat) : Recency :=
  let previous := recency.previousOf slot
  let next := recency.nextOf slot
  let bridged := (recency.linkForward previous next).linkBackward next previous
  { bridged with
    links := bridged.links.setIfInBounds slot .detached
    length := bridged.length - 1 }

/-- Marks a slot as the one used most recently. -/
def moveToHead (recency : Recency) (slot : Nat) : Recency :=
  if recency.head = some slot then recency else (recency.unlink slot).pushHead slot

/-- The first `count` slots met from a link on. -/
def slotsFrom (recency : Recency) : Nat → Option Nat → List Nat
  | 0, _ => []
  | _ + 1, none => []
  | count + 1, some slot => slot :: recency.slotsFrom count (recency.nextOf slot)

/-- The slots in use, the one used most recently first. -/
def toList (recency : Recency) : List Nat :=
  recency.slotsFrom recency.length recency.head

end Recency

end Collections
