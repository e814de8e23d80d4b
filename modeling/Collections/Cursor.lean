/-!
# Cursors

A cursor walks over a finite sequence and knows how many items are still to come.
Some cursors can be consumed from both ends, in any pattern of calls.
-/

namespace Collections

universe u v

class Cursor (κ : Type u) (α : outParam (Type v)) where
  remaining : κ → Nat
  next : κ → Option α × κ

class DoubleEndedCursor (κ : Type u) (α : outParam (Type v)) extends Cursor κ α where
  nextBack : κ → Option α × κ

/-- The end of the sequence that a call takes its item from. -/
inductive SequenceEnd where
  | front
  | back
  deriving DecidableEq, Repr

variable {κ : Type u} {α : Type v}

/-- The item and the number of items still to come, for each of a number of calls. -/
def Cursor.calls [Cursor κ α] : Nat → κ → List (Option α × Nat)
  | 0, _ => []
  | count + 1, cursor =>
    let (item, rest) := next cursor
    (item, remaining rest) :: calls count rest

def DoubleEndedCursor.take [DoubleEndedCursor κ α] (side : SequenceEnd) (cursor : κ) :
    Option α × κ :=
  match side with
  | .front => Cursor.next cursor
  | .back => nextBack cursor

/-- The item and the number of items still to come, for each call of a pattern. -/
def DoubleEndedCursor.calls [DoubleEndedCursor κ α] :
    List SequenceEnd → κ → List (Option α × Nat)
  | [], _ => []
  | side :: pattern, cursor =>
    let (item, rest) := take side cursor
    (item, Cursor.remaining rest) :: calls pattern rest

end Collections
