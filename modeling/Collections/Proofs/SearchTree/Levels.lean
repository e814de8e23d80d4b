import Mathlib
import Collections.Proofs.SearchTree.Reshaping

/-!
# The height of a search tree

The height is found with a stack of pending subtrees, and it is the recursively defined one.  An
insertion puts a node in the place of a leaf, and a removal lets a subtree of a node move up into
the node's place, directly under its parent.  So either of them changes the height by one level at
most, also when the value that follows the removed one is taken from further down.
-/

namespace Collections

universe u

namespace Tree

variable {α : Type u}

/-! ## The stack of pending subtrees -/

/-- The greatest depth of a node in a pending tree, which comes with the depth of its root. -/
def bottom : Tree α × Nat → Nat
  | (.leaf, _) => 0
  | (.node left _ right, depth) => depth + max left.height right.height

/-- A subtree reaches as far below its parent as it is high. -/
theorem max_bottom (subtree : Tree α) (depth : Nat) :
    max depth (bottom (subtree, depth + 1)) = depth + subtree.height := by
  cases subtree with
  | leaf => exact Nat.max_zero depth
  | node left value right =>
      rw [bottom, height]
      omega

/-- The best depth is improved by every pending tree. -/
theorem deepest_eq_foldl (best : Nat) (pending : List (Tree α × Nat)) :
    deepest best pending = (pending.map bottom).foldl max best := by
  fun_induction deepest best pending with
  | case1 best => rfl
  | case2 best depth pending ih => rw [ih, List.map_cons, List.foldl_cons, bottom, Nat.max_zero]
  | case3 best left value right depth pending ih =>
      have hright := max_bottom right depth
      have hleft := max_bottom left depth
      have hbest : max (max (max best depth) (bottom (right, depth + 1)))
          (bottom (left, depth + 1)) = max best (bottom (node left value right, depth)) := by
        rw [bottom.eq_def (node left value right, depth)]
        dsimp only
        omega
      rw [ih, List.map_cons, List.map_cons, List.map_cons, List.foldl_cons, List.foldl_cons,
        List.foldl_cons, hbest]

theorem deepest_root (tree : Tree α) : deepest 0 [(tree, 1)] = tree.height := by
  calc
    deepest 0 [(tree, 1)] = max 0 (bottom (tree, 0 + 1)) := deepest_eq_foldl 0 [(tree, 1)]
    _ = 0 + tree.height := max_bottom tree 0
    _ = tree.height := Nat.zero_add _

/-! ## Height and number of nodes -/

theorem height_le_size (tree : Tree α) : tree.height ≤ tree.size := by
  induction tree with
  | leaf => exact Nat.le_refl 0
  | node left value right ihLeft ihRight =>
      rw [height, size]
      omega

/-- Each level has room for twice as many nodes as the one above it. -/
theorem size_lt_two_pow_height (tree : Tree α) : tree.size < 2 ^ tree.height := by
  induction tree with
  | leaf => exact Nat.one_pos
  | node left value right ihLeft ihRight =>
      have hleft : left.size < 2 ^ max left.height right.height :=
        Nat.lt_of_lt_of_le ihLeft (Nat.pow_le_pow_right Nat.two_pos (Nat.le_max_left _ _))
      have hright : right.size < 2 ^ max left.height right.height :=
        Nat.lt_of_lt_of_le ihRight (Nat.pow_le_pow_right Nat.two_pos (Nat.le_max_right _ _))
      rw [height, size, Nat.pow_succ]
      omega

/-! ## Exchanged parts -/

/-- The second of two heights is the first one or one level more. -/
def WithinLevel (lower higher : Nat) : Prop :=
  higher = lower ∨ higher = lower + 1

variable {old new before after : Tree α}

theorem Exchanged.symm (hexchanged : Exchanged old new before after) :
    Exchanged new old after before := by
  induction hexchanged with
  | here => exact .here
  | left _ ih => exact .left ih
  | right _ ih => exact .right ih

/-- A tree gains a level at most if the exchanged part does. -/
theorem Exchanged.withinLevel (hexchanged : Exchanged old new before after)
    (hparts : WithinLevel old.height new.height) : WithinLevel before.height after.height := by
  induction hexchanged with
  | here => exact hparts
  | left _ ih =>
      rw [WithinLevel] at ih ⊢
      rw [height, height]
      omega
  | right _ ih =>
      rw [WithinLevel] at ih ⊢
      rw [height, height]
      omega

/-- A subtree that takes the place of its parent is one level higher up. -/
theorem withinLevel_takeLeast (left : Tree α) (value : α) (right : Tree α) :
    WithinLevel (takeLeast left value right).2.height (node left value right).height := by
  obtain ⟨greater, hexchanged⟩ := exchanged_takeLeast left value right
  apply hexchanged.symm.withinLevel
  right
  rw [height, height, Nat.zero_max]

theorem withinLevel_join (left : Tree α) (value : α) (right : Tree α) :
    WithinLevel (join left right).height (node left value right).height := by
  cases right with
  | leaf =>
      have hjoin : join left leaf = left := by cases left <;> rfl
      rw [hjoin, height]
      exact Or.inr (congrArg (· + 1) (Nat.max_zero left.height))
  | node first least last =>
      cases left with
      | leaf => exact Or.inr (congrArg (· + 1) (Nat.zero_max (node first least last).height))
      | node before middle after =>
          -- The successor leaves the right subtree, which may lose a level by that.
          have htaken := withinLevel_takeLeast first least last
          have hjoin : (join (node before middle after) (node first least last)).height =
              max (node before middle after).height (takeLeast first least last).2.height + 1 := rfl
          have hnode : (node (node before middle after) value (node first least last)).height =
              max (node before middle after).height (node first least last).height + 1 := rfl
          rw [WithinLevel] at htaken ⊢
          rw [hjoin, hnode]
          omega

variable [Ord α] {tree : Tree α}

/-- An insertion exchanges a leaf for a node without subtrees. -/
theorem exchanged_of_insert? {grown : Tree α} {added : α}
    (hinsert : tree.insert? added = some grown) :
    Exchanged leaf (node leaf added leaf) tree grown := by
  induction tree generalizing grown with
  | leaf =>
      rw [insert?] at hinsert
      obtain rfl := Option.some.inj hinsert
      exact .here
  | node left value right ihLeft ihRight =>
      rw [insert?] at hinsert
      cases hcompare : compare added value with
      | lt =>
          rw [hcompare] at hinsert
          obtain ⟨deeper, hdeeper, rfl⟩ := Option.map_eq_some_iff.mp hinsert
          exact .left (ihLeft hdeeper)
      | gt =>
          rw [hcompare] at hinsert
          obtain ⟨deeper, hdeeper, rfl⟩ := Option.map_eq_some_iff.mp hinsert
          exact .right (ihRight hdeeper)
      | eq =>
          rw [hcompare] at hinsert
          simp at hinsert

theorem withinLevel_of_insert? {grown : Tree α} {added : α}
    (hinsert : tree.insert? added = some grown) : WithinLevel tree.height grown.height :=
  (exchanged_of_insert? hinsert).withinLevel (Or.inr rfl)

theorem withinLevel_of_erase? {rest : Tree α} {unwanted : α}
    (herase : tree.erase? unwanted = some rest) : WithinLevel rest.height tree.height := by
  obtain ⟨left, erased, right, hexchanged, -⟩ := exchanged_of_erase? herase
  exact hexchanged.symm.withinLevel (withinLevel_join left erased right)

end Tree

namespace BinarySearchTree

variable {α : Type u} [Ord α] {tree : BinarySearchTree α}

/-- The height of a tree and how calls change it. -/
structure Levelled (tree : BinarySearchTree α) : Prop where
  height_eq : tree.height = tree.root.height
  height_le : tree.height ≤ tree.nodeCount
  nodeCount_le : tree.nodeCount ≤ 2 ^ tree.height - 1
  add : ∀ value, (tree.add value).height = tree.height ∨
    (tree.add value).height = tree.height + 1
  remove : ∀ value, tree.height = (tree.remove value).2.height ∨
    tree.height = (tree.remove value).2.height + 1

theorem height_eq_root (tree : BinarySearchTree α) : tree.height = tree.root.height :=
  Tree.deepest_root tree.root

/-- Only a new node can add a level. -/
theorem withinLevel_add (tree : BinarySearchTree α) (value : α) :
    Tree.WithinLevel tree.height (tree.add value).height := by
  rw [height_eq_root, height_eq_root]
  cases hinsert : tree.root.insert? value with
  | some grown =>
      rw [add_of_insert? hinsert]
      exact Tree.withinLevel_of_insert? hinsert
  | none =>
      rw [add_of_insert?_none hinsert]
      exact Or.inl rfl

/-- Only the removal of a node can take a level away. -/
theorem withinLevel_remove (tree : BinarySearchTree α) (value : α) :
    Tree.WithinLevel (tree.remove value).2.height tree.height := by
  rw [height_eq_root, height_eq_root]
  cases hextra : tree.repetitions[value]? with
  | some extra =>
      rw [remove_of_repeated hextra]
      exact Or.inl rfl
  | none =>
      cases herase : tree.root.erase? value with
      | some rest =>
          rw [remove_of_erase? hextra herase]
          exact Tree.withinLevel_of_erase? herase
      | none =>
          rw [remove_of_erase?_none hextra herase]
          exact Or.inl rfl

variable [Std.TransOrd α]

/-- The height that the stack finds is that of the nodes, it fits their number, and no call for one
value moves it by more than one level. -/
theorem Reachable.levelled (hreached : tree.Reachable) : tree.Levelled := by
  obtain ⟨bag, hrepresents⟩ := hreached.represents
  exact {
    height_eq := tree.height_eq_root
    height_le := by
      rw [height_eq_root, hrepresents.nodeCount_eq]
      exact tree.root.height_le_size
    nodeCount_le := by
      rw [height_eq_root, hrepresents.nodeCount_eq]
      exact Nat.le_pred_of_lt tree.root.size_lt_two_pow_height
    add := tree.withinLevel_add
    remove := tree.withinLevel_remove }

/-- Removing the root takes a level away, since its successor stands on the longest path; removing
the value beside it does not. -/
theorem levelled_splicingCalls :
    ∃ tree : BinarySearchTree Element, tree.Reachable ∧ tree.height = 4 ∧ tree.nodeCount = 5 ∧
      (tree.remove (.tagged 4 9)).2.height = 3 ∧ (tree.remove (.tagged 2 9)).2.height = 4 ∧
      tree.Levelled := by
  have hreached := reachable_run .preOrder splicingCalls
  exact ⟨_, hreached, by cbv, by cbv, by cbv, by cbv, hreached.levelled⟩

end BinarySearchTree

end Collections
