import Collections.Cursor
import Collections.SearchTree.Tree

/-!
# Walks through a tree

A walk produces the values of a tree one at a time.  It keeps a stack of nodes:
in order, the nodes whose left subtrees are being walked; in pre-order, the roots
of the subtrees to come; in post-order also nodes that are only waiting for their
subtrees to be done.
-/

namespace Collections

universe u

namespace Tree

/-- A node on the stack of a walk. -/
inductive Frame (α : Type u) where
  /-- A node whose subtrees have not been put on the stack. -/
  | fresh (left : Tree α) (value : α) (right : Tree α)
  /-- A node whose subtrees lie above it on the stack. -/
  | expanded (value : α)
  deriving Repr

structure Walk (α : Type u) where
  pending : List (Frame α)
  order : TraversalOrder
  remaining : Nat
  deriving Repr

variable {α : Type u}

/-- How often a frame will still come to the top in post-order. -/
def Frame.weight : Frame α → Nat
  | .fresh left _ right => 2 * (left.size + right.size + 1)
  | .expanded _ => 1

/-- Puts the root of a tree, if it has one, on the stack. -/
def pushRoot (tree : Tree α) (pending : List (Frame α)) : List (Frame α) :=
  match tree with
  | .leaf => pending
  | .node left value right => .fresh left value right :: pending

/-- Puts the nodes of the leftmost path on the stack, the last one on top. -/
def pushLeftSpine : Tree α → List (Frame α) → List (Frame α)
  | .leaf, pending => pending
  | .node left value right, pending => pushLeftSpine left (.fresh left value right :: pending)

namespace Walk

/-- The weights of the frames on a stack, taken together. -/
def weight : List (Frame α) → Nat
  | [] => 0
  | frame :: pending => frame.weight + weight pending

theorem weight_pushRoot (tree : Tree α) (pending : List (Frame α)) :
    weight (pushRoot tree pending) = 2 * tree.size + weight pending := by
  cases tree <;> simp [pushRoot, weight, Frame.weight, size]

/-- Expands fresh nodes until an expanded one comes to the top. -/
def advancePostOrder : List (Frame α) → Option (α × List (Frame α))
  | [] => none
  | .expanded value :: pending => some (value, pending)
  | .fresh left value right :: pending =>
    advancePostOrder (pushRoot left (pushRoot right (.expanded value :: pending)))
termination_by pending => weight pending
decreasing_by
  rw [weight_pushRoot, weight_pushRoot]
  simp only [weight, Frame.weight]
  omega

/-- The next value and the stack after it. -/
def advance : TraversalOrder → List (Frame α) → Option (α × List (Frame α))
  | _, [] => none
  | .inOrder, .fresh _ value right :: pending => some (value, pushLeftSpine right pending)
  | .preOrder, .fresh left value right :: pending =>
    some (value, pushRoot left (pushRoot right pending))
  | .postOrder, frame :: pending => advancePostOrder (frame :: pending)
  | _, .expanded value :: pending => some (value, pending)

/-- A walk through a tree that is known to have `count` nodes. -/
def start (tree : Tree α) (order : TraversalOrder) (count : Nat) : Walk α :=
  let pending :=
    match order with
    | .inOrder => pushLeftSpine tree []
    | .preOrder | .postOrder => pushRoot tree []
  ⟨pending, order, count⟩

def next (walk : Walk α) : Option α × Walk α :=
  match advance walk.order walk.pending with
  | some (value, pending) =>
    (some value, { walk with pending := pending, remaining := walk.remaining - 1 })
  | none => (none, walk)

instance : Cursor (Walk α) α where
  remaining := remaining
  next := next

end Walk

end Tree

end Collections
