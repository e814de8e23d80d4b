import Collections.Json.Variant

/-!
# Search trees

Binary trees whose values increase from left to right.  A value is looked up,
inserted and removed along one path from the root.  When a node with two
children is removed, the least value of its right subtree takes its place.
-/

namespace Collections

universe u

inductive Tree (α : Type u) where
  | leaf
  | node (left : Tree α) (value : α) (right : Tree α)
  deriving Repr, Inhabited, DecidableEq

/-- The three orders in which a tree is walked through. -/
inductive TraversalOrder where
  | inOrder
  | preOrder
  | postOrder
  deriving DecidableEq, Repr, Inhabited

namespace TraversalOrder

def name : TraversalOrder → String
  | .inOrder => "InOrder"
  | .preOrder => "PreOrder"
  | .postOrder => "PostOrder"

def all : List TraversalOrder := [.inOrder, .preOrder, .postOrder]

instance : Literal TraversalOrder := ⟨name⟩

/-- The order that a JSON text names. -/
def ofText (text : String) : Except Json.Fault TraversalOrder :=
  Json.readVariant (all.map fun order => (order.name, order)) text

end TraversalOrder

namespace Tree

variable {α : Type u}

/-- The number of nodes. -/
def size : Tree α → Nat
  | .leaf => 0
  | .node left _ right => left.size + right.size + 1

/-- The number of nodes on the longest path from the root. -/
def height : Tree α → Nat
  | .leaf => 0
  | .node left _ right => max left.height right.height + 1

def inOrder : Tree α → List α
  | .leaf => []
  | .node left value right => left.inOrder ++ value :: right.inOrder

def preOrder : Tree α → List α
  | .leaf => []
  | .node left value right => value :: (left.preOrder ++ right.preOrder)

def postOrder : Tree α → List α
  | .leaf => []
  | .node left value right => left.postOrder ++ (right.postOrder ++ [value])

/-- The values in a traversal order. -/
def traverse (tree : Tree α) : TraversalOrder → List α
  | .inOrder => tree.inOrder
  | .preOrder => tree.preOrder
  | .postOrder => tree.postOrder

def min? : Tree α → Option α
  | .leaf => none
  | .node .leaf value _ => some value
  | .node left _ _ => left.min?

def max? : Tree α → Option α
  | .leaf => none
  | .node _ value .leaf => some value
  | .node _ _ right => right.max?

/-- Takes the least value out of the tree with the given root. -/
def takeLeast : Tree α → α → Tree α → α × Tree α
  | .leaf, value, right => (value, right)
  | .node left least middle, value, right =>
    let (taken, rest) := takeLeast left least middle
    (taken, .node rest value right)

/-- What remains of a node's subtrees when its value is removed. -/
def join : Tree α → Tree α → Tree α
  | left, .leaf => left
  | .leaf, right => right
  | left, .node least value greatest =>
    let (successor, rest) := takeLeast least value greatest
    .node left successor rest

section Ordered

variable [Ord α]

def contains (wanted : α) : Tree α → Bool
  | .leaf => false
  | .node left value right =>
    match compare wanted value with
    | .lt => left.contains wanted
    | .gt => right.contains wanted
    | .eq => true

/-- The tree with a new leaf for the value, or nothing if an equal value is there. -/
def insert? (added : α) : Tree α → Option (Tree α)
  | .leaf => some (.node .leaf added .leaf)
  | .node left value right =>
    match compare added value with
    | .lt => (left.insert? added).map fun grown => .node grown value right
    | .gt => (right.insert? added).map fun grown => .node left value grown
    | .eq => none

/-- The tree without the node of an equal value, or nothing if there is none. -/
def erase? (unwanted : α) : Tree α → Option (Tree α)
  | .leaf => none
  | .node left value right =>
    match compare unwanted value with
    | .lt => (left.erase? unwanted).map fun rest => .node rest value right
    | .gt => (right.erase? unwanted).map fun rest => .node left value rest
    | .eq => some (join left right)

end Ordered

/-- Twice the sizes of the listed trees, and one for each of them. -/
def workload : List (Tree α × Nat) → Nat
  | [] => 0
  | (tree, _) :: pending => 2 * tree.size + 1 + workload pending

/-- The greatest depth among a best one so far and the nodes of pending trees, each
listed with the depth of its root. -/
def deepest (best : Nat) : List (Tree α × Nat) → Nat
  | [] => best
  | (.leaf, _) :: pending => deepest best pending
  | (.node left _ right, depth) :: pending =>
    deepest (max best depth) ((right, depth + 1) :: (left, depth + 1) :: pending)
termination_by pending => workload pending
decreasing_by
  all_goals
    simp only [workload, size]
    omega

end Tree

end Collections
