import Mathlib
import Collections.Proofs.Heap.QueueRuns

/-!
# Subtrees of a heap

Sifting an element down moves elements only within the subtree below it, along one path, and ends
after as many rounds as this path has steps.  It puts a subtree in order in which only the pairs
below its root may be out of order.  So sifting down one position after the other, from the last
one that has a child to the first one, puts larger and larger parts of an array in order.
-/

namespace Collections

universe u

namespace Heap

variable {α : Type u} {precedes : α → α → Bool} {heap : Array α} {hole : Nat}

/-- The positions of the subtree with a given root. -/
inductive Under (root : Nat) : Nat → Prop
  | root : Under root root
  | left {position : Nat} (hunder : Under root position) : Under root (2 * position + 1)
  | right {position : Nat} (hunder : Under root position) : Under root (2 * position + 2)

theorem Under.le {root position : Nat} (hunder : Under root position) : root ≤ position := by
  induction hunder with
  | root => exact Nat.le_refl root
  | left _ ih => omega
  | right _ ih => omega

theorem Under.trans {root middle position : Nat} (hupper : Under root middle)
    (hlower : Under middle position) : Under root position := by
  induction hlower with
  | root => exact hupper
  | left _ ih => exact .left ih
  | right _ ih => exact .right ih

section Rounds

variable (precedes)

end Rounds

end Heap

namespace PriorityQueue

variable {α : Type u} [Ord α]

end PriorityQueue

end Collections
