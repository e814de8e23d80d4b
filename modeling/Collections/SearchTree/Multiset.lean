import Collections.SearchTree.Walk
import Std.Data.TreeMap

/-!
# Search trees with repetitions

A multiset of values.  Every distinct value has one node of a search tree, which
holds the instance that was added first; how often it was added beyond that is
counted in a table on the side.  A removal uses up a repetition before it touches
the tree.
-/

namespace Collections

universe u

/-- The two numbers grow by one with an addition, so no execution makes enough additions for a
64-bit number to wrap, although repetitions need no memory. -/
structure BinarySearchTree (α : Type u) [Ord α] where
  root : Tree α
  /-- The number of values, repetitions included. -/
  length : Nat
  nodeCount : Nat
  /-- How often a value occurs beyond its node. -/
  repetitions : Std.TreeMap α Nat
  traversal : TraversalOrder

namespace BinarySearchTree

variable {α : Type u} [Ord α]

def empty (traversal : TraversalOrder) : BinarySearchTree α :=
  ⟨.leaf, 0, 0, ∅, traversal⟩

instance : Inhabited (BinarySearchTree α) := ⟨empty .inOrder⟩

def isEmpty (tree : BinarySearchTree α) : Bool :=
  tree.length == 0

def clear (tree : BinarySearchTree α) : BinarySearchTree α :=
  empty tree.traversal

def contains (tree : BinarySearchTree α) (value : α) : Bool :=
  tree.root.contains value

/-- How often a value was added and not removed. -/
def occurrences (tree : BinarySearchTree α) (value : α) : Nat :=
  if tree.contains value then 1 + tree.repetitions.getD value 0 else 0

/-- Counts a value that often, under the instance that has been counted already if there is
one. -/
def recount (repetitions : Std.TreeMap α Nat) (value : α) (count : Nat) : Std.TreeMap α Nat :=
  repetitions.insert (repetitions.getKeyD value value) count

def add (tree : BinarySearchTree α) (value : α) : BinarySearchTree α :=
  match tree.root.insert? value with
  | some root =>
    { tree with root := root, length := tree.length + 1, nodeCount := tree.nodeCount + 1 }
  | none =>
    { tree with
      length := tree.length + 1
      repetitions := recount tree.repetitions value (tree.repetitions.getD value 0 + 1) }

def extend (tree : BinarySearchTree α) (values : List α) : BinarySearchTree α :=
  values.foldl add tree

def ofList (values : List α) : BinarySearchTree α :=
  (empty .inOrder).extend values

/-- Removes one occurrence of a value and tells whether there was one. -/
def remove (tree : BinarySearchTree α) (value : α) : Bool × BinarySearchTree α :=
  match tree.repetitions[value]? with
  | some extra =>
    (true,
      { tree with
        length := tree.length - 1
        repetitions :=
          if extra - 1 = 0 then tree.repetitions.erase value
          else recount tree.repetitions value (extra - 1) })
  | none =>
    match tree.root.erase? value with
    | some root =>
      (true,
        { tree with root := root, length := tree.length - 1, nodeCount := tree.nodeCount - 1 })
    | none => (false, tree)

def min? (tree : BinarySearchTree α) : Option α :=
  tree.root.min?

def max? (tree : BinarySearchTree α) : Option α :=
  tree.root.max?

/-- The height of the tree, found without recursion into it. -/
def height (tree : BinarySearchTree α) : Nat :=
  Tree.deepest 0 [(tree.root, 1)]

/-- The distinct values in a traversal order. -/
def toListIn (tree : BinarySearchTree α) (order : TraversalOrder) : List α :=
  tree.root.traverse order

/-- The distinct values in the tree's own traversal order. -/
def toList (tree : BinarySearchTree α) : List α :=
  tree.toListIn tree.traversal

def walkIn (tree : BinarySearchTree α) (order : TraversalOrder) : Tree.Walk α :=
  .start tree.root order tree.nodeCount

def walk (tree : BinarySearchTree α) : Tree.Walk α :=
  tree.walkIn tree.traversal

instance [Literal α] : Literal (BinarySearchTree α) where
  literal tree := Literal.list tree.toList

end BinarySearchTree

end Collections
