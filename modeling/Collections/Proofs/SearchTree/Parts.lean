import Mathlib
import Collections.SearchTree.Tree

/-!
# Parts of a tree in its traversals

In every traversal order the values of a subtree stand next to each other.  So when one
part of a tree gives way to another, each sequence is rewritten in one place: there it
shows the values of the new part instead of those of the old one.
-/

namespace Collections

universe u

variable {α : Type u}

/-! ## Sequences -/

/-- Two sequences are the same but for one stretch, the old one in the first sequence and
the new one in the second. -/
def Rewritten (old new before after : List α) : Prop :=
  ∃ front back, before = front ++ old ++ back ∧ after = front ++ new ++ back

theorem Rewritten.here (old new : List α) : Rewritten old new old new :=
  ⟨[], [], (List.append_nil old).symm, (List.append_nil new).symm⟩

/-- What is rewritten inside a stretch is rewritten in the sequence. -/
theorem Rewritten.inside {old new stretch other before after : List α}
    (houter : Rewritten stretch other before after) (hinner : Rewritten old new stretch other) :
    Rewritten old new before after := by
  obtain ⟨first, last, rfl, rfl⟩ := houter
  obtain ⟨front, back, rfl, rfl⟩ := hinner
  exact ⟨first ++ front, back ++ last, by simp, by simp⟩

theorem Rewritten.perm {value : α} {before after : List α}
    (hdropped : Rewritten [value] [] before after) : before.Perm (value :: after) := by
  obtain ⟨front, back, rfl, rfl⟩ := hdropped
  rw [List.append_assoc, List.append_nil]
  exact List.perm_middle

namespace TraversalOrder

/-- The value of a node, put in an order with the values of its subtrees. -/
def arrange (order : TraversalOrder) (left : List α) (value : α) (right : List α) : List α :=
  match order with
  | .inOrder => left ++ value :: right
  | .preOrder => value :: (left ++ right)
  | .postOrder => left ++ (right ++ [value])

variable (order : TraversalOrder) (left other right : List α) (value instead : α)

theorem rewritten_left :
    Rewritten left other (order.arrange left value right) (order.arrange other value right) := by
  cases order with
  | inOrder => exact ⟨[], value :: right, rfl, rfl⟩
  | preOrder => exact ⟨[value], right, rfl, rfl⟩
  | postOrder => exact ⟨[], right ++ [value], rfl, rfl⟩

theorem rewritten_right :
    Rewritten right other (order.arrange left value right) (order.arrange left value other) := by
  cases order with
  | inOrder => exact ⟨left ++ [value], [], by simp [arrange], by simp [arrange]⟩
  | preOrder => exact ⟨value :: left, [], by simp [arrange], by simp [arrange]⟩
  | postOrder => exact ⟨left, [value], by simp [arrange], by simp [arrange]⟩

theorem rewritten_value : Rewritten [value] [instead]
    (order.arrange left value right) (order.arrange left instead right) := by
  cases order with
  | inOrder => exact ⟨left, right, by simp [arrange], by simp [arrange]⟩
  | preOrder => exact ⟨[], left ++ right, rfl, rfl⟩
  | postOrder => exact ⟨left ++ right, [], by simp [arrange], by simp [arrange]⟩

/-- Without the value of a node, the values of its subtrees follow on each other. -/
theorem rewritten_without :
    Rewritten [value] [] (order.arrange left value right) (left ++ right) := by
  cases order with
  | inOrder => exact ⟨left, right, by simp [arrange], by simp⟩
  | preOrder => exact ⟨[], left ++ right, rfl, rfl⟩
  | postOrder => exact ⟨left ++ right, [], by simp [arrange], by simp⟩

end TraversalOrder

namespace Tree

@[simp]
theorem traverse_leaf (order : TraversalOrder) : (leaf : Tree α).traverse order = [] := by
  cases order <;> rfl

theorem traverse_node (order : TraversalOrder) (left right : Tree α) (value : α) :
    (node left value right).traverse order =
      order.arrange (left.traverse order) value (right.traverse order) := by
  cases order <;> rfl

/-- All orders show the same values. -/
theorem traverse_perm (tree : Tree α) (order : TraversalOrder) :
    (tree.traverse order).Perm tree.inOrder := by
  induction tree with
  | leaf =>
      rw [traverse_leaf]
      exact List.Perm.nil
  | node left value right ihLeft ihRight =>
      calc
        ((node left value right).traverse order).Perm
            (value :: (left.traverse order ++ right.traverse order)) := by
          rw [traverse_node]
          exact (order.rewritten_without _ _ value).perm
        List.Perm _ (value :: (left.inOrder ++ right.inOrder)) :=
          (ihLeft.append ihRight).cons value
        List.Perm _ (node left value right).inOrder := List.perm_middle.symm

/-! ## Parts -/

/-- One tree is another one or a subtree of it. -/
inductive Within (part : Tree α) : Tree α → Prop
  | whole : Within part part
  | left {first second : Tree α} {top : α} (hwithin : Within part first) :
      Within part (node first top second)
  | right {first second : Tree α} {top : α} (hwithin : Within part second) :
      Within part (node first top second)

/-- The values of a tree are those of its nodes. -/
theorem mem_inOrder_iff {tree : Tree α} {value : α} :
    value ∈ tree.inOrder ↔ ∃ left right, (node left value right).Within tree := by
  induction tree with
  | leaf =>
      constructor
      · exact fun hmem => absurd hmem List.not_mem_nil
      · rintro ⟨left, right, hwithin⟩
        cases hwithin
  | node first top second ihFirst ihSecond =>
      rw [inOrder, List.mem_append, List.mem_cons, ihFirst, ihSecond]
      constructor
      · rintro (⟨left, right, hwithin⟩ | rfl | ⟨left, right, hwithin⟩)
        · exact ⟨left, right, .left hwithin⟩
        · exact ⟨first, second, .whole⟩
        · exact ⟨left, right, .right hwithin⟩
      · rintro ⟨left, right, hwithin⟩
        cases hwithin with
        | whole => exact Or.inr (Or.inl rfl)
        | left hfirst => exact Or.inl ⟨left, right, hfirst⟩
        | right hsecond => exact Or.inr (Or.inr ⟨left, right, hsecond⟩)

/-- Two trees are the same but for a part, which is the old one in the first tree and the
new one in the second. -/
inductive Exchanged (old new : Tree α) : Tree α → Tree α → Prop
  | here : Exchanged old new old new
  | left {before after second : Tree α} {top : α} (hexchanged : Exchanged old new before after) :
      Exchanged old new (node before top second) (node after top second)
  | right {before after first : Tree α} {top : α} (hexchanged : Exchanged old new before after) :
      Exchanged old new (node first top before) (node first top after)

variable {old new before after : Tree α}

theorem Exchanged.within (hexchanged : Exchanged old new before after) : old.Within before := by
  induction hexchanged with
  | here => exact .whole
  | left _ ih => exact .left ih
  | right _ ih => exact .right ih

theorem Exchanged.rewritten (hexchanged : Exchanged old new before after)
    (order : TraversalOrder) : Rewritten (old.traverse order) (new.traverse order)
      (before.traverse order) (after.traverse order) := by
  induction hexchanged with
  | here => exact .here _ _
  | left _ ih =>
      rw [traverse_node, traverse_node]
      exact (order.rewritten_left _ _ _ _).inside ih
  | right _ ih =>
      rw [traverse_node, traverse_node]
      exact (order.rewritten_right _ _ _ _).inside ih

end Tree

end Collections
