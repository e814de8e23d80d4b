import Mathlib
import Collections.Proofs.SearchTree.Counters
import Collections.Proofs.SearchTree.Parts
import Collections.Proofs.SearchTree.TreeWalk

/-!
# Walks meet every node once

A walk through a search tree yields the sequence of its order, value by value, and then
nothing any more; before and after each call it tells how many values are still to come.
Since no two nodes have equal values, each node is met by exactly one call.  A call in
post-order turns fresh nodes into expanded ones until an expanded one is on top, which takes
finitely many turns.
-/

namespace Collections

universe u

namespace Tree.Walk

variable {α : Type u}

/-- The turns of a call in post-order, with their number: a fresh node is expanded and the
call goes on, an expanded one is taken, or nothing is left. -/
inductive Turns : Nat → List (Frame α) → Option (α × List (Frame α)) → Prop
  | nothing : Turns 1 [] none
  | taken (value : α) (pending : List (Frame α)) :
      Turns 1 (.expanded value :: pending) (some (value, pending))
  | expanded {count : Nat} {left right : Tree α} {value : α} {pending : List (Frame α)}
      {answer : Option (α × List (Frame α))}
      (hturns : Turns count (pushRoot left (pushRoot right (.expanded value :: pending))) answer) :
      Turns (count + 1) (.fresh left value right :: pending) answer

/-- Each turn but the last one makes the stack lighter, so a call ends. -/
theorem exists_turns (pending : List (Frame α)) :
    ∃ count ≤ weight pending + 1, Turns count pending (advancePostOrder pending) := by
  fun_induction advancePostOrder pending with
  | case1 => exact ⟨1, Nat.le_refl _, .nothing⟩
  | case2 value pending => exact ⟨1, Nat.le_add_left _ _, .taken value pending⟩
  | case3 left value right pending ih =>
      obtain ⟨count, hcount, hturns⟩ := ih
      refine ⟨count + 1, ?_, .expanded hturns⟩
      rw [weight_pushRoot, weight_pushRoot] at hcount
      simp only [weight, Frame.weight] at hcount ⊢
      omega

/-- No frame comes to the top more than twice for each value that it stands for. -/
theorem weight_le_upcoming (pending : List (Frame α)) :
    weight pending ≤ 2 * (upcoming .postOrder pending).length := by
  induction pending with
  | nil => exact Nat.le_refl _
  | cons frame pending ih =>
      have hframe : frame.weight ≤ 2 * (frame.upcoming .postOrder).length := by
        cases frame with
        | fresh left value right =>
            exact Nat.le_of_eq (congrArg (2 * ·)
              ((node left value right).length_traverse .postOrder).symm)
        | expanded value => exact Nat.le_succ 1
      rw [upcoming, List.flatMap_cons, List.length_append, Nat.mul_add]
      exact Nat.add_le_add hframe ih

/-- No call changes the order of a walk. -/
theorem order_after (walk : Walk α) (calls : Nat) :
    (Cursor.after walk calls).order = walk.order := by
  induction calls with
  | zero => rfl
  | succ calls ih =>
      rw [← ih, Cursor.after]
      change (next (Cursor.after walk calls)).2.order = _
      rw [next]
      split <;> rfl

theorem advance_postOrder (pending : List (Frame α)) :
    advance .postOrder pending = advancePostOrder pending := by
  cases pending with
  | nil => rw [advance, advancePostOrder]
  | cons frame pending => rw [advance]

end Tree.Walk

namespace BinarySearchTree

variable {α : Type u} [Ord α] {tree : BinarySearchTree α}

/-- A walk in an order after a number of calls. -/
def walkAfter (tree : BinarySearchTree α) (order : TraversalOrder) (calls : Nat) : Tree.Walk α :=
  Cursor.after (tree.walkIn order) calls

/-- A walk through a tree yields the sequence of the tree and meets each node once. -/
structure Enumerates (tree : BinarySearchTree α) (order : TraversalOrder) : Prop where
  /-- The calls yield the sequence from its start and then nothing, and each of them tells how
  many values are left. -/
  calls_eq : ∀ count, Cursor.calls count (tree.walkIn order) =
    Cursor.visits (tree.toListIn order) count
  /-- Also before each call the walk tells how many values are left. -/
  remaining_eq : ∀ calls,
    Cursor.remaining (tree.walkAfter order calls) = (tree.toListIn order).length - calls
  item_eq : ∀ calls, (Cursor.next (tree.walkAfter order calls)).1 = (tree.toListIn order)[calls]?
  met_once : ∀ left stored right, (Tree.node left stored right).Within tree.root →
    ∃! calls, (Cursor.next (tree.walkAfter order calls)).1 = some stored
  met_nodes : ∀ calls stored, (Cursor.next (tree.walkAfter order calls)).1 = some stored →
    ∃ left right, (Tree.node left stored right).Within tree.root
  /-- The search for the next value in post-order ends. -/
  ends : order = .postOrder → ∀ calls,
    ∃ turns ≤ 2 * Cursor.remaining (tree.walkAfter order calls) + 1,
      Tree.Walk.Turns turns (tree.walkAfter order calls).pending
        (Tree.Walk.advance order (tree.walkAfter order calls).pending)

variable [Std.TransOrd α]

theorem Represents.nodup {bag : Bag α} (hrepresents : tree.Represents bag)
    (order : TraversalOrder) : (tree.toListIn order).Nodup := by
  apply (hrepresents.ordered.pairwise_ne order).imp
  rintro first second hne rfl
  exact hne Std.ReflCmp.compare_self

/-- The walks through a tree yield its sequences, whatever calls the tree has seen. -/
theorem Reachable.walk_enumerates (hreached : tree.Reachable) (order : TraversalOrder) :
    tree.Enumerates order := by
  obtain ⟨bag, hrepresents⟩ := hreached.represents
  have hshows := Tree.Walk.shows_start tree.root order hrepresents.nodeCount_eq
  have hitem : ∀ calls, (Cursor.next (tree.walkAfter order calls)).1 =
      (tree.toListIn order)[calls]? :=
    fun calls => (Tree.Walk.yields_shows.remaining_after hshows calls).2
  have hmem : ∀ stored, stored ∈ tree.toListIn order ↔
      ∃ left right, (Tree.node left stored right).Within tree.root := by
    intro stored
    rw [← Tree.mem_inOrder_iff]
    exact (tree.root.traverse_perm order).mem_iff
  exact {
    calls_eq := Tree.Walk.calls_start tree.root order hrepresents.nodeCount_eq
    remaining_eq := fun calls => (Tree.Walk.yields_shows.remaining_after hshows calls).1
    item_eq := hitem
    met_once := by
      intro left stored right hwithin
      simp only [hitem]
      have hstored := (hmem stored).mpr ⟨left, right, hwithin⟩
      obtain ⟨calls, hcalls⟩ := List.mem_iff_getElem?.mp hstored
      refine ⟨calls, hcalls, ?_⟩
      intro others hothers
      have hbound := (List.getElem?_eq_some_iff.mp hothers).1
      exact (List.getElem?_inj hbound (hrepresents.nodup order)).mp (hothers.trans hcalls.symm)
    met_nodes := by
      intro calls stored hstored
      rw [hitem] at hstored
      exact (hmem stored).mp (List.mem_of_getElem? hstored)
    ends := by
      rintro rfl calls
      have hafter : (tree.walkAfter .postOrder calls).Shows _ :=
        Tree.Walk.yields_shows.shows_after hshows calls
      have horder : (tree.walkAfter .postOrder calls).order = .postOrder :=
        Tree.Walk.order_after (tree.walkIn .postOrder) calls
      have hweight : Tree.Walk.weight (tree.walkAfter .postOrder calls).pending ≤
          2 * Cursor.remaining (tree.walkAfter .postOrder calls) := by
        rw [Tree.Walk.yields_shows.remaining_eq _ _ hafter, ← hafter.1, horder]
        exact Tree.Walk.weight_le_upcoming _
      obtain ⟨turns, hcount, hturns⟩ :=
        Tree.Walk.exists_turns (tree.walkAfter .postOrder calls).pending
      exact ⟨turns, hcount.trans (Nat.add_le_add_right hweight 1),
        Tree.Walk.advance_postOrder _ ▸ hturns⟩ }

/-- Calls that remove a node with two subtrees, so that its successor is met in its place. -/
def succeedingCalls : List (BagCall Element) :=
  [.extend [.tagged 4 1, .tagged 2 1, .tagged 3 1, .tagged 8 1, .tagged 6 1, .tagged 7 1],
    .add (.tagged 6 2), .remove (.tagged 4 9)]

theorem walk_enumerates_succeedingCalls :
    ∃ tree : BinarySearchTree Element, tree.Reachable ∧ tree.length = 6 ∧
      tree.toListIn .postOrder =
        [.tagged 3 1, .tagged 2 1, .tagged 7 1, .tagged 8 1, .tagged 6 1] ∧
      ∀ order, tree.Enumerates order := by
  have hreached : Reachable (Calls.run perform (empty .inOrder) succeedingCalls).2 :=
    Calls.Reachable.run succeedingCalls (.start (Or.inl ⟨.inOrder, rfl⟩))
  exact ⟨_, hreached, by cbv, by cbv, hreached.walk_enumerates⟩

end BinarySearchTree

end Collections
