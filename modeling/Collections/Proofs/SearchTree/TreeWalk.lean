import Mathlib
import Collections.Proofs.Cursor
import Collections.Proofs.SearchTree.Ordered
import Collections.SearchTree.Walk

/-!
# Walks yield traversals

A walk keeps a stack of nodes.  What is still to come can be read off the stack, from
the top down; each call takes the first value of it, so a walk through a tree yields the
tree's traversal.
-/

namespace Collections

universe u

namespace Tree

variable {α : Type u}

theorem length_traverse (tree : Tree α) (order : TraversalOrder) :
    (tree.traverse order).length = tree.size :=
  (tree.traverse_perm order).length_eq.trans tree.size_eq_length.symm

/-- The values that a frame on the stack of a walk stands for. -/
def Frame.upcoming (order : TraversalOrder) : Frame α → List α
  | .fresh left value right =>
    match order with
    | .inOrder => value :: right.inOrder
    | .preOrder => (node left value right).preOrder
    | .postOrder => (node left value right).postOrder
  | .expanded value => [value]

namespace Walk

/-- The values that are still to come if these nodes are on the stack. -/
def upcoming (order : TraversalOrder) (pending : List (Frame α)) : List α :=
  pending.flatMap (Frame.upcoming order)

theorem upcoming_pushLeftSpine (tree : Tree α) :
    ∀ pending, upcoming .inOrder (pushLeftSpine tree pending) =
      tree.inOrder ++ upcoming .inOrder pending := by
  induction tree with
  | leaf => exact fun pending => rfl
  | node left value right ih _ =>
      intro pending
      rw [pushLeftSpine, ih, inOrder, List.append_assoc]
      rfl

theorem upcoming_pushRoot_preOrder (tree : Tree α) (pending : List (Frame α)) :
    upcoming .preOrder (pushRoot tree pending) =
      tree.preOrder ++ upcoming .preOrder pending := by
  cases tree <;> rfl

theorem upcoming_pushRoot_postOrder (tree : Tree α) (pending : List (Frame α)) :
    upcoming .postOrder (pushRoot tree pending) =
      tree.postOrder ++ upcoming .postOrder pending := by
  cases tree <;> rfl

/-- A walk in post-order comes to the first value still to come, and to nothing if there
is none. -/
theorem advancePostOrder_eq (pending : List (Frame α)) :
    (advancePostOrder pending).map (fun step => step.1 :: upcoming .postOrder step.2) =
      if upcoming .postOrder pending = [] then none
      else some (upcoming .postOrder pending) := by
  fun_induction advancePostOrder pending with
  | case1 => rfl
  | case2 value pending => rfl
  | case3 left value right pending ih =>
      rw [ih, upcoming_pushRoot_postOrder, upcoming_pushRoot_postOrder]
      have hsame : left.postOrder ++ (right.postOrder ++
          upcoming .postOrder (.expanded value :: pending)) =
            upcoming .postOrder (.fresh left value right :: pending) := by
        simp [upcoming, Frame.upcoming, postOrder]
      rw [hsame]

/-- A walk in any order comes to the first value still to come, and to nothing if there
is none. -/
theorem advance_eq (order : TraversalOrder) (pending : List (Frame α)) :
    (advance order pending).map (fun step => step.1 :: upcoming order step.2) =
      if upcoming order pending = [] then none else some (upcoming order pending) := by
  cases pending with
  | nil => cases order <;> rfl
  | cons frame pending =>
      cases order with
      | postOrder =>
          rw [advance]
          exact advancePostOrder_eq (frame :: pending)
      | inOrder =>
          cases frame with
          | expanded value => rfl
          | fresh left value right =>
              rw [advance, Option.map_some, upcoming_pushLeftSpine]
              rfl
      | preOrder =>
          cases frame with
          | expanded value => rfl
          | fresh left value right =>
              rw [advance, Option.map_some, upcoming_pushRoot_preOrder,
                upcoming_pushRoot_preOrder, ← List.append_assoc]
              rfl

/-- A walk has these values before it. -/
def Shows (walk : Walk α) (items : List α) : Prop :=
  upcoming walk.order walk.pending = items ∧ walk.remaining = items.length

theorem yields_shows : Cursor.Yields (Shows : Walk α → List α → Prop) where
  next_nil := by
    intro walk hshows
    have hadvance := advance_eq walk.order walk.pending
    rw [if_pos hshows.1, Option.map_eq_none_iff] at hadvance
    change (next walk).1 = none ∧ Shows (next walk).2 []
    rw [next, hadvance]
    exact ⟨rfl, hshows⟩
  next_cons := by
    intro walk item items hshows
    have hadvance := advance_eq walk.order walk.pending
    rw [hshows.1, if_neg (List.cons_ne_nil item items), Option.map_eq_some_iff] at hadvance
    obtain ⟨⟨value, pending⟩, hstep, hfirst⟩ := hadvance
    obtain ⟨rfl, rfl⟩ := List.cons.inj hfirst
    change (next walk).1 = some value ∧ Shows (next walk).2 (upcoming walk.order pending)
    rw [next, hstep]
    refine ⟨rfl, rfl, ?_⟩
    change walk.remaining - 1 = _
    rw [hshows.2, List.length_cons, Nat.add_sub_cancel]
  remaining_eq := fun walk items hshows => hshows.2

/-- A walk through a tree that is known to have `count` nodes has the traversal of the
tree before it. -/
theorem shows_start (tree : Tree α) (order : TraversalOrder) {count : Nat}
    (hcount : count = tree.size) : Shows (start tree order count) (tree.traverse order) := by
  refine ⟨?_, hcount.trans (length_traverse tree order).symm⟩
  cases order with
  | inOrder =>
      change upcoming .inOrder (pushLeftSpine tree []) = tree.inOrder
      rw [upcoming_pushLeftSpine]
      exact List.append_nil _
  | preOrder =>
      change upcoming .preOrder (pushRoot tree []) = tree.preOrder
      rw [upcoming_pushRoot_preOrder]
      exact List.append_nil _
  | postOrder =>
      change upcoming .postOrder (pushRoot tree []) = tree.postOrder
      rw [upcoming_pushRoot_postOrder]
      exact List.append_nil _

theorem calls_start (tree : Tree α) (order : TraversalOrder) {count : Nat}
    (hcount : count = tree.size) (calls : Nat) :
    Cursor.calls calls (start tree order count) = Cursor.visits (tree.traverse order) calls :=
  yields_shows.calls_eq_visits calls (shows_start tree order hcount)

/-- As many calls as there are nodes, or more, yield the whole traversal. -/
theorem yielded_start (tree : Tree α) (order : TraversalOrder) {count calls : Nat}
    (hcount : count = tree.size) (hcalls : count ≤ calls) :
    Cursor.yielded calls (start tree order count) = tree.traverse order := by
  rw [Cursor.yielded, calls_start tree order hcount, Cursor.filterMap_visits,
    List.take_of_length_le]
  rw [length_traverse, ← hcount]
  exact hcalls

end Walk

end Tree

end Collections
