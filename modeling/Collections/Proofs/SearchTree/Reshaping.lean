import Mathlib
import Collections.Proofs.SearchTree.Counters
import Collections.Proofs.SearchTree.Parts

/-!
# How a removal reshapes a tree

The sequences of a tree in its three orders fix its shape.  When a node with at most one
child is removed, each of them loses the value of the node and nothing else changes.  A node
with two children gets the value that follows it from left to right, and the sequences lose
the old entry of that value.
-/

namespace Collections

universe u

namespace Tree

variable {α : Type u}

/-- What the sequences of a tree show before and after a node with the given subtrees and the
given value is taken out. -/
structure Unlinked (left : Tree α) (stored : α) (right before after : Tree α) : Prop where
  inOrder : Rewritten [stored] [] before.inOrder after.inOrder
  /-- The value of a node with at most one child is left out. -/
  spliced : left = .leaf ∨ right = .leaf → ∀ order,
    Rewritten [stored] [] (before.traverse order) (after.traverse order)
  /-- In the place of a node with two children stands the value that follows next from left to
  right, and its own old entry is left out. -/
  succeeded : left ≠ .leaf → right ≠ .leaf → ∃ successor,
    Rewritten [stored, successor] [successor] before.inOrder after.inOrder ∧
      ∀ order, ∃ between, Rewritten [successor] [] (before.traverse order) between ∧
        Rewritten [stored] [successor] between (after.traverse order)
  /-- The other values are the instances that were there before. -/
  instances : ∀ order, (before.traverse order).Perm (stored :: after.traverse order)

/-- The least value has no left subtree, and its right subtree takes its place. -/
theorem exchanged_takeLeast (left : Tree α) :
    ∀ (value : α) (right : Tree α), ∃ greater,
      Exchanged (node leaf (takeLeast left value right).1 greater) greater
        (node left value right) (takeLeast left value right).2 := by
  induction left with
  | leaf => exact fun value right => ⟨right, .here⟩
  | node first least middle ih _ =>
      intro value right
      obtain ⟨greater, hexchanged⟩ := ih least middle
      exact ⟨greater, .left hexchanged⟩

theorem rewritten_join_of_leaf {left right : Tree α} (hleaf : left = leaf ∨ right = leaf)
    (value : α) (order : TraversalOrder) :
    Rewritten [value] [] ((node left value right).traverse order)
      ((join left right).traverse order) := by
  have hjoined : (join left right).traverse order =
      left.traverse order ++ right.traverse order := by
    rcases hleaf with rfl | rfl
    · cases right <;> simp [join]
    · cases left <;> simp [join]
  rw [hjoined, traverse_node]
  exact order.rewritten_without _ _ value

/-- Two subtrees are joined at the least value of the right one, which is taken out there. -/
theorem exists_join_eq {left right : Tree α} (hleft : left ≠ leaf) (hright : right ≠ leaf) :
    ∃ successor rest, join left right = node left successor rest ∧
      right.inOrder = successor :: rest.inOrder ∧
        ∀ order, Rewritten [successor] [] (right.traverse order) (rest.traverse order) := by
  cases left with
  | leaf => exact absurd rfl hleft
  | node before value after =>
      cases right with
      | leaf => exact absurd rfl hright
      | node first least last =>
          refine ⟨(takeLeast first least last).1, (takeLeast first least last).2, rfl,
            (takeLeast_inOrder first least last).symm, ?_⟩
          intro order
          obtain ⟨greater, hexchanged⟩ := exchanged_takeLeast first least last
          have hjoin : join leaf greater = greater := by cases greater <;> rfl
          have hsplice := @rewritten_join_of_leaf _ leaf greater (Or.inl rfl)
            (takeLeast first least last).1 order
          rw [hjoin] at hsplice
          exact (hexchanged.rewritten order).inside hsplice

/-- The value of a node with two subtrees gives way to its successor. -/
theorem unlinked_of_nodes {left right : Tree α} (hleft : left ≠ leaf) (hright : right ≠ leaf)
    (stored : α) : ∃ successor,
      Rewritten [stored, successor] [successor] (node left stored right).inOrder
          (join left right).inOrder ∧
        ∀ order, ∃ between,
          Rewritten [successor] [] ((node left stored right).traverse order) between ∧
            Rewritten [stored] [successor] between ((join left right).traverse order) := by
  obtain ⟨successor, rest, hjoin, hnext, hdropped⟩ := exists_join_eq hleft hright
  refine ⟨successor, ⟨left.inOrder, rest.inOrder, ?_, ?_⟩, fun order => ?_⟩
  · simp [inOrder, hnext]
  · simp [inOrder, hjoin]
  · refine ⟨order.arrange (left.traverse order) stored (rest.traverse order), ?_, ?_⟩
    · rw [traverse_node]
      exact (order.rewritten_right _ _ _ stored).inside (hdropped order)
    · rw [hjoin, traverse_node]
      exact order.rewritten_value _ _ stored successor

theorem Exchanged.unlinked {left right before after : Tree α} {stored : α}
    (hexchanged : Exchanged (node left stored right) (join left right) before after) :
    Unlinked left stored right before after := by
  have hrewritten := hexchanged.rewritten
  have hinOrder : Rewritten [stored] [] before.inOrder after.inOrder := by
    apply (hrewritten .inOrder).inside
    change Rewritten [stored] [] (left.inOrder ++ stored :: right.inOrder) (join left right).inOrder
    rw [join_inOrder]
    exact TraversalOrder.inOrder.rewritten_without _ _ stored
  exact {
    inOrder := hinOrder
    spliced := fun hleaf order =>
      (hrewritten order).inside (rewritten_join_of_leaf hleaf stored order)
    succeeded := by
      intro hleft hright
      obtain ⟨successor, hnext, hreplaced⟩ := unlinked_of_nodes hleft hright stored
      refine ⟨successor, (hrewritten .inOrder).inside hnext, fun order => ?_⟩
      obtain ⟨between, hdropped, hplaced⟩ := hreplaced order
      obtain ⟨front, back, hbefore, hafter⟩ := hrewritten order
      refine ⟨front ++ between ++ back, ?_, ?_⟩
      · exact Rewritten.inside ⟨front, back, hbefore, rfl⟩ hdropped
      · exact Rewritten.inside ⟨front, back, rfl, hafter⟩ hplaced
    instances := fun order => calc
      (before.traverse order).Perm before.inOrder := before.traverse_perm order
      List.Perm _ (stored :: after.inOrder) := hinOrder.perm
      List.Perm _ (stored :: after.traverse order) :=
        (after.traverse_perm order).symm.cons stored }

end Tree

namespace BinarySearchTree

variable {α : Type u} [Ord α] {tree : BinarySearchTree α}

/-- What the removal of a value does to the sequences of a tree. -/
structure Reshaped (tree : BinarySearchTree α) (value : α) : Prop where
  /-- No sequence shows two equal values, so each value has one entry. -/
  distinct : ∀ order, (tree.toListIn order).Pairwise fun first second => compare first second ≠ .eq
  /-- The last occurrence of a value goes with its node. -/
  unlinked : tree.occurrences value = 1 → ∃ left stored right,
    (Tree.node left stored right).Within tree.root ∧ compare value stored = .eq ∧
      (tree.remove value).1 = true ∧
        Tree.Unlinked left stored right tree.root (tree.remove value).2.root
  /-- A repetition, or a value that is not there, leaves every sequence as it is. -/
  unchanged : tree.occurrences value ≠ 1 → ∀ order,
    (tree.remove value).2.toListIn order = tree.toListIn order

variable [Std.TransOrd α]

/-- Only the last occurrence of a value is removed with its node. -/
theorem root_remove_of_occurrences_ne_one {value : α} (hoccurrences : tree.occurrences value ≠ 1) :
    (tree.remove value).2.root = tree.root := by
  cases hextra : tree.repetitions[value]? with
  | some extra => rw [remove_of_repeated hextra]
  | none =>
      cases herase : tree.root.erase? value with
      | none => rw [remove_of_erase?_none hextra herase]
      | some rest =>
          refine absurd ?_ hoccurrences
          have hcontains : tree.contains value = true := Tree.contains_of_erase? herase
          rw [occurrences, if_pos hcontains, Std.TreeMap.getD_eq_getD_getElem?, hextra]
          rfl

theorem Represents.remove_of_occurrences_eq_one {bag : Bag α} (hrepresents : tree.Represents bag)
    {value : α} (honce : tree.occurrences value = 1) : ∃ rest,
      tree.root.erase? value = some rest ∧ (tree.remove value).1 = true ∧
        (tree.remove value).2.root = rest := by
  rw [occurrences] at honce
  split at honce
  next hcontains =>
    have hsingle : tree.repetitions[value]? = none := by
      cases hextra : tree.repetitions[value]? with
      | none => rfl
      | some extra =>
          have hpositive := (hrepresents.repeated value extra hextra).1
          rw [Std.TreeMap.getD_eq_getD_getElem?, hextra, Option.getD_some] at honce
          omega
    have herase : tree.root.erase? value ≠ none := by
      rw [ne_eq, Tree.erase?_eq_none_iff, Bool.not_eq_false]
      exact hcontains
    obtain ⟨rest, hrest⟩ := Option.ne_none_iff_exists'.mp herase
    rw [remove_of_erase? hsingle hrest]
    exact ⟨rest, hrest, rfl, rfl⟩
  next => exact absurd honce (by decide)

/-- A removal takes the entry of the value out of every sequence and moves at most the next
value, or it changes no sequence at all. -/
theorem Reachable.remove_reshapes (hreached : tree.Reachable) (value : α) :
    tree.Reshaped value := by
  obtain ⟨bag, hrepresents⟩ := hreached.represents
  exact {
    distinct := hrepresents.ordered.pairwise_ne
    unlinked := by
      intro honce
      obtain ⟨rest, herase, hanswer, hroot⟩ := hrepresents.remove_of_occurrences_eq_one honce
      obtain ⟨left, stored, right, hexchanged, hequal⟩ := Tree.exchanged_of_erase? herase
      refine ⟨left, stored, right, hexchanged.within, hequal, hanswer, ?_⟩
      rw [hroot]
      exact hexchanged.unlinked
    unchanged := by
      intro hoccurrences order
      rw [toListIn, toListIn, root_remove_of_occurrences_ne_one hoccurrences] }

/-- Calls that make a tree in which the successor of the root has a right subtree of its own,
and one value is repeated. -/
def splicingCalls : List (BagCall Element) :=
  [.extend [.tagged 4 1, .tagged 2 1, .tagged 8 1, .tagged 6 1, .tagged 7 1, .tagged 7 2]]

theorem remove_reshapes_splicingCalls :
    ∃ tree : BinarySearchTree Element, tree.Reachable ∧
      tree.occurrences (.tagged 4 9) = 1 ∧ tree.occurrences (.tagged 7 9) = 2 ∧
      (tree.remove (.tagged 4 9)).2.toListIn .preOrder =
        [.tagged 6 1, .tagged 2 1, .tagged 8 1, .tagged 7 1] ∧
      tree.Reshaped (.tagged 4 9) ∧ tree.Reshaped (.tagged 7 9) := by
  have hreached : Reachable (Calls.run perform (empty .preOrder) splicingCalls).2 :=
    Calls.Reachable.run splicingCalls (.start (Or.inl ⟨.preOrder, rfl⟩))
  exact ⟨_, hreached, by cbv, by cbv, by cbv, hreached.remove_reshapes _,
    hreached.remove_reshapes _⟩

end BinarySearchTree

end Collections
