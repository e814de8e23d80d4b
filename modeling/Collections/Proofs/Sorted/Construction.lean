import Mathlib
import Collections.Proofs.Sorted.LowerBound

/-!
# Sorting and inserting one by one

Sorting keeps equal elements in the order they were given in, and an insertion puts the item in
front of the elements equal to it.  So a sorted list is what insertions lead to that take the
given items from the last to the first, and items that are inserted in the order they are given
in stand in the sorted list of the reversed items.
-/

namespace Collections

universe u

namespace Sorted

variable {α : Type u} [Ord α]

/-- The elements that are equal to an item, in the order in which they stand. -/
def equalTo (item : α) (items : List α) : List α :=
  items.filter fun resident => compare resident item == .eq

theorem equalTo_append (item : α) (front back : List α) :
    equalTo item (front ++ back) = equalTo item front ++ equalTo item back :=
  List.filter_append _ _

theorem equalTo_eq_nil {item : α} {items : List α}
    (hothers : ∀ resident ∈ items, compare resident item ≠ .eq) : equalTo item items = [] := by
  rw [equalTo, List.filter_eq_nil_iff]
  intro resident hresident hequal
  exact hothers resident hresident (beq_iff_eq.mp hequal)

theorem reverse_equalTo (item : α) (items : List α) :
    (equalTo item items).reverse = equalTo item items.reverse :=
  List.filter_reverse.symm

end Sorted

namespace SortedList

open Sorted (equalTo)

variable {α : Type u} [Ord α]

/-- What a list of given items and insertions of the same items have to do with each other. -/
structure BuiltAlike (direction : Direction) (items : List α) : Prop where
  /-- The items are inserted one at a time, from the last to the first. -/
  inserted_eq : (Calls.run perform (empty direction) (items.reverse.map .insert)).2 =
    ofList direction items
  extended_eq : (empty direction).extend items = ofList direction items.reverse
  /-- Sorting keeps equal elements in the given order. -/
  sorted_keeps : ∀ item, equalTo item (ofList direction items).toList = equalTo item items
  /-- Insertions stack equal elements up, the newest in front. -/
  inserted_stacks : ∀ item,
    equalTo item ((empty direction).extend items).toList = (equalTo item items).reverse

/-! ## Insertions -/

theorem extend_append (list : SortedList α) (earlier later : List α) :
    list.extend (earlier ++ later) = (list.extend earlier).extend later :=
  List.foldl_append

variable [Std.TransOrd α] {list : SortedList α}

/-- An insertion puts the item in front of all elements equal to it, and it moves no other
element. -/
theorem Ordered.equalTo_insert (hordered : list.Ordered) (item other : α) :
    equalTo other (list.insert item).2.toList = equalTo other (item :: list.toList) := by
  obtain ⟨front, back, hdivides⟩ := hordered.exists_divides item
  obtain ⟨-, hinserted, -⟩ := hdivides.insert
  rw [hinserted, hdivides.toList_eq]
  change equalTo other (front ++ ([item] ++ back)) = equalTo other ([item] ++ (front ++ back))
  simp only [Sorted.equalTo_append]
  by_cases hequal : compare item other = .eq
  · -- Elements that belong strictly before the item are not equal to it.
    have hfront : equalTo other front = [] := by
      apply Sorted.equalTo_eq_nil
      intro resident hresident hsame
      apply Direction.ne_eq_of_precedes (hdivides.front_precedes resident hresident)
      exact Std.TransCmp.eq_trans hsame (Std.OrientedCmp.eq_symm hequal)
    rw [hfront, List.nil_append, List.nil_append]
  · have hitem : equalTo other [item] = [] := by
      apply Sorted.equalTo_eq_nil
      rintro resident hresident
      rwa [List.mem_singleton.mp hresident]
    rw [hitem, List.nil_append, List.nil_append]

/-- Items that are inserted one after the other stand in reverse order among equal elements. -/
theorem Ordered.equalTo_extend (items : List α) (other : α) :
    ∀ {list : SortedList α}, list.Ordered →
      equalTo other (list.extend items).toList =
        equalTo other items.reverse ++ equalTo other list.toList := by
  induction items with
  | nil => exact fun hordered => rfl
  | cons item items ih =>
      intro list hordered
      calc
        equalTo other ((list.insert item).2.extend items).toList =
            equalTo other items.reverse ++ equalTo other (item :: list.toList) := by
          rw [ih (hordered.insert item), hordered.equalTo_insert]
        _ = equalTo other items.reverse ++ (equalTo other [item] ++ equalTo other list.toList) := by
          rw [← List.singleton_append, Sorted.equalTo_append]
        _ = equalTo other (item :: items).reverse ++ equalTo other list.toList := by
          rw [List.reverse_cons, Sorted.equalTo_append, List.append_assoc]

/-! ## Sorting -/

/-- A list with one more item in front is sorted by an insertion of that item. -/
theorem ofList_cons (direction : Direction) (item : α) (items : List α) :
    ofList direction (item :: items) = ((ofList direction items).insert item).2 := by
  obtain ⟨front, back, hsorted, hrest, hfront⟩ := @List.mergeSort_cons _ direction.admits
    (fun _ _ _ => Direction.admits_trans) direction.admits_total item items
  -- The sort leaves the item behind all elements that belong strictly before it, and the order
  -- of the result says that no other element does: this is where an insertion puts it.
  have hwhole := ordered_ofList direction (item :: items)
  have hitems : (ofList direction (item :: items)).toList = front ++ item :: back := hsorted
  rw [Ordered, hitems, List.pairwise_append, List.pairwise_cons] at hwhole
  have hdivides : (ofList direction items).Divides item front back := by
    apply (ordered_ofList direction items).divides_of_parts hrest
    · intro resident hresident
      have hbehind := hfront resident hresident
      rw [Bool.not_eq_true', ← Bool.not_eq_true, Direction.admits_iff_not_precedes,
        Bool.not_eq_false] at hbehind
      exact hbehind
    · intro resident hresident
      exact Direction.not_precedes_of_admits (hwhole.2.1.1 resident hresident)
  obtain ⟨-, hinserted, -⟩ := hdivides.insert
  exact eq_of_toList rfl (hitems.trans hinserted.symm)

/-- Sorting is inserting from the last item to the first. -/
theorem extend_reverse (direction : Direction) (items : List α) :
    (empty direction).extend items.reverse = ofList direction items := by
  induction items with
  | nil =>
      rw [ofList, List.mergeSort_nil]
      rfl
  | cons item items ih =>
      rw [List.reverse_cons, extend_append, ih, ofList_cons]
      rfl

/-- In either direction sorting agrees, instance by instance, with insertions in the opposite
order, and the two treat equal elements in opposite ways. -/
theorem ofList_beside_insertions (direction : Direction) (items : List α) :
    BuiltAlike direction items where
  inserted_eq := by rw [run_insert, extend_reverse]
  extended_eq := by rw [← extend_reverse, List.reverse_reverse]
  sorted_keeps := by
    intro item
    rw [← extend_reverse, Ordered.equalTo_extend _ _ (ordered_empty direction),
      List.reverse_reverse]
    exact List.append_nil _
  inserted_stacks := by
    intro item
    rw [Ordered.equalTo_extend _ _ (ordered_empty direction), Sorted.reverse_equalTo]
    exact List.append_nil _

/-- Items of which two pairs are equal. -/
def pairedItems : List Element :=
  [.tagged 2 1, .tagged 1 2, .tagged 2 3, .tagged 3 4, .tagged 1 5]

theorem ofList_beside_insertions_pairedItems :
    Std.TransOrd Element ∧ (ofList .descending pairedItems).toList =
      [.tagged 3 4, .tagged 2 1, .tagged 2 3, .tagged 1 2, .tagged 1 5] ∧
    ((empty .descending).extend pairedItems).toList =
      [.tagged 3 4, .tagged 2 3, .tagged 2 1, .tagged 1 5, .tagged 1 2] ∧
    BuiltAlike .descending pairedItems := by
  have hbuilt := ofList_beside_insertions .descending pairedItems
  refine ⟨inferInstance, ?_, by cbv, hbuilt⟩
  rw [← hbuilt.inserted_eq]
  cbv

end SortedList

end Collections
