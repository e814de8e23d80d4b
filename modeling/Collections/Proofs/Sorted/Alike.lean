import Mathlib
import Collections.Proofs.Direction

/-!
# Lists that are equal place by place

Two lists are alike if equal elements stand in the same places, whichever of several equal
instances it is that stands there.  Up to this the elements of a list can be put in order in
only one way.
-/

namespace Collections

universe u

namespace Sorted

variable {α : Type u} [Ord α]

/-- The lists have equal elements in the same places. -/
def Alike (first second : List α) : Prop :=
  List.Forall₂ (fun left right => compare left right = .eq) first second

/-- The number of elements equal to an item. -/
def countEqual (item : α) (items : List α) : Nat :=
  items.countP fun resident => compare resident item == .eq

variable [Std.TransOrd α] {direction : Direction} {first second : List α}

omit [Std.TransOrd α] in
theorem Alike.getElem? (halike : Alike first second) (position : Nat) :
    Option.Rel (fun left right => compare left right = .eq) first[position]?
      second[position]? := by
  induction halike generalizing position with
  | nil => exact .none
  | cons hequal _ ih =>
      cases position with
      | zero => exact .some hequal
      | succ position => exact ih position

theorem Alike.refl (items : List α) : Alike items items :=
  List.forall₂_same.mpr fun _ _ => Std.ReflCmp.compare_self

/-- Elements that can be matched with equal ones are as many of each kind. -/
theorem countEqual_of_rel
    (hmatched : Multiset.Rel (fun left right : α => compare left right = .eq) first second)
    (item : α) : countEqual item first = countEqual item second := by
  have htrans : IsTrans α fun left right => compare left right = .eq :=
    ⟨fun _ _ _ => Std.TransCmp.eq_trans⟩
  have hsymm : Std.Symm fun left right : α => compare left right = .eq :=
    ⟨fun _ _ => Std.OrientedCmp.eq_symm⟩
  have hcount : ∀ items : List α, countEqual item items =
      Multiset.countP (compare item · = .eq) (items : Multiset α) := by
    intro items
    rw [countEqual, Multiset.coe_countP]
    apply List.countP_congr
    intro resident _
    rw [beq_iff_eq, decide_eq_true_iff]
    exact Std.OrientedCmp.eq_comm
  rw [hcount, hcount]
  exact Multiset.Rel.countP_eq _ item hmatched

theorem exists_equal_of_countEqual {item : α} (hcount : countEqual item (item :: first) =
    countEqual item second) : ∃ resident ∈ second, compare resident item = .eq := by
  have hpositive : 0 < countEqual item second := by
    rw [← hcount]
    exact List.countP_pos_iff.mpr
      ⟨item, List.mem_cons_self, beq_iff_eq.mpr Std.ReflCmp.compare_self⟩
  obtain ⟨resident, hresident, hequal⟩ := List.countP_pos_iff.mp hpositive
  exact ⟨resident, hresident, beq_iff_eq.mp hequal⟩

/-- The first element of an ordered list may stand before every item that the list has. -/
theorem admits_head {head item : α}
    (hordered : (head :: second).Pairwise fun left right => direction.admits left right = true)
    (hcount : countEqual item (item :: first) = countEqual item (head :: second)) :
    direction.admits head item = true := by
  obtain ⟨resident, hresident, hequal⟩ := exists_equal_of_countEqual hcount
  have hbehind : direction.admits resident item = true := by
    rw [Direction.admits_iff, Direction.compare_eq_eq_iff.mpr hequal]
    decide
  rcases List.mem_cons.mp hresident with hsame | hlater
  · rwa [← hsame]
  · exact Direction.admits_trans ((List.pairwise_cons.mp hordered).1 resident hlater) hbehind

/-- Ordered lists that have as many elements of each kind are alike. -/
theorem alike_of_countEqual
    (hfirst : first.Pairwise fun left right => direction.admits left right = true)
    (hsecond : second.Pairwise fun left right => direction.admits left right = true)
    (hcount : ∀ item, countEqual item first = countEqual item second) :
    Alike first second := by
  induction first generalizing second with
  | nil =>
      cases second with
      | nil => exact .nil
      | cons other rest =>
          obtain ⟨resident, hresident, -⟩ := exists_equal_of_countEqual (hcount other).symm
          exact absurd hresident List.not_mem_nil
  | cons head items ih =>
      cases second with
      | nil =>
          obtain ⟨resident, hresident, -⟩ := exists_equal_of_countEqual (hcount head)
          exact absurd hresident List.not_mem_nil
      | cons other rest =>
          have hequal : compare head other = .eq :=
            Direction.eq_of_admits (admits_head hfirst (hcount other).symm)
              (admits_head hsecond (hcount head))
          refine .cons hequal (ih hfirst.of_cons hsecond.of_cons ?_)
          intro item
          have hboth := hcount item
          rw [countEqual, countEqual, List.countP_cons, List.countP_cons,
            Std.TransCmp.congr_left hequal] at hboth
          exact Nat.add_right_cancel hboth

/-- The elements of a list have one order in a direction, up to equal elements. -/
theorem alike_of_perm
    (hfirst : first.Pairwise fun left right => direction.admits left right = true)
    (hsecond : second.Pairwise fun left right => direction.admits left right = true)
    (hperm : first.Perm second) : Alike first second :=
  alike_of_countEqual hfirst hsecond fun _ => hperm.countP_eq _

end Sorted

end Collections
