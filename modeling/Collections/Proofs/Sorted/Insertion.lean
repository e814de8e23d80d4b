import Mathlib
import Collections.Proofs.Direction
import Collections.Proofs.Sorted.PartitionPoint
import Collections.Sorted.List

/-!
# Insertion into ordered lists

In an ordered list the lower bound of an item divides the elements that belong before the
item from all others.  So the item can be inserted there, an element equal to it can only
be the one that stands there, and no operation brings the list out of order.
-/

namespace Collections

universe u

namespace SortedList

variable {α : Type u}

/-! ## Parts of a list -/

section Parts

variable {items : Array α} {front back : List α} {resident : α}

theorem exists_parts {index : Nat} (hindex : index < items.size) :
    ∃ front back, items.toList = front ++ items[index] :: back ∧ front.length = index := by
  refine ⟨items.toList.take index, items.toList.drop (index + 1), ?_, ?_⟩
  · rw [← Array.getElem_toList hindex, List.getElem_cons_drop, List.take_append_drop]
  · rw [List.length_take, Array.length_toList]
    exact Nat.min_eq_left (Nat.le_of_lt hindex)

theorem length_lt_size (hparts : items.toList = front ++ resident :: back) :
    front.length < items.size := by
  rw [← Array.length_toList, hparts, List.length_append, List.length_cons]
  exact Nat.lt_add_of_pos_right (Nat.succ_pos _)

theorem getElem?_of_parts (hparts : items.toList = front ++ resident :: back) :
    items[front.length]? = some resident := by
  rw [← Array.getElem?_toList, hparts, List.getElem?_append_right (Nat.le_refl _), Nat.sub_self,
    List.getElem?_cons_zero]

theorem sublist_of_parts (front back : List α) (resident : α) :
    (front ++ back).Sublist (front ++ resident :: back) :=
  (List.sublist_cons_self resident back).append_left front

theorem insertIdx_length (front back : List α) (item : α) :
    (front ++ back).insertIdx front.length item = front ++ item :: back := by
  induction front with
  | nil => rfl
  | cons first rest ih =>
      rw [List.cons_append, List.length_cons, List.insertIdx_succ_cons, ih, List.cons_append]

theorem eraseIdx_length (front back : List α) (resident : α) :
    (front ++ resident :: back).eraseIdx front.length = front ++ back := by
  rw [List.eraseIdx_append_of_length_le (Nat.le_refl _), Nat.sub_self, List.eraseIdx_cons_zero]

/-- Where a condition holds of the elements of the first part alone, it holds that often. -/
theorem countP_parts {condition : α → Bool} (hfront : ∀ resident ∈ front, condition resident = true)
    (hback : ∀ resident ∈ back, condition resident = false) :
    (front ++ back).countP condition = front.length := by
  have hnone : back.countP condition = 0 := by
    rw [List.countP_eq_zero]
    intro resident hresident
    rw [hback resident hresident]
    exact Bool.false_ne_true
  rw [List.countP_append, List.countP_eq_length.mpr hfront, hnone, Nat.add_zero]

theorem toList_eraseIdx_of_parts (hparts : items.toList = front ++ resident :: back) :
    (items.eraseIdx front.length (length_lt_size hparts)).toList = front ++ back := by
  rw [Array.toList_eraseIdx, hparts, eraseIdx_length]

theorem toList_set_of_parts (hparts : items.toList = front ++ resident :: back) (value : α) :
    (items.set front.length value (length_lt_size hparts)).toList = front ++ value :: back := by
  rw [Array.toList_set, hparts, List.set_append_right _ _ (Nat.le_refl _), Nat.sub_self,
    List.set_cons_zero]

end Parts

/-! ## Ordered lists -/

variable [Ord α]

/-- Every element may stand before all elements after it. -/
def Ordered (list : SortedList α) : Prop :=
  list.toList.Pairwise fun first second => list.direction.admits first second = true

instance (list : SortedList α) : Decidable list.Ordered :=
  inferInstanceAs (Decidable (list.toList.Pairwise fun first second =>
    list.direction.admits first second = true))

theorem ordered_iff_compare_ne (list : SortedList α) :
    list.Ordered ↔ ∀ (first second : Nat) (hfirst : first < list.items.size)
      (hsecond : second < list.items.size), first < second →
        list.direction.compare list.items[first] list.items[second] ≠ .gt := by
  rw [Ordered, List.pairwise_iff_getElem]
  simp only [Direction.admits_iff]
  rfl

theorem ordered_empty (direction : Direction) : (empty direction : SortedList α).Ordered :=
  List.Pairwise.nil

variable {list : SortedList α}

omit [Ord α] in
theorem toList_reverse (list : SortedList α) : list.reverse.toList = list.toList.reverse :=
  Array.toList_reverse

omit [Ord α] in
theorem direction_reverse (list : SortedList α) :
    list.reverse.direction = list.direction.reversed :=
  rfl

theorem Ordered.reverse (hordered : list.Ordered) : list.reverse.Ordered := by
  rw [Ordered, toList_reverse, List.pairwise_reverse]
  simp only [direction_reverse, Direction.admits_reversed]
  exact hordered

/-- A list stays ordered when elements are taken out. -/
theorem Ordered.of_sublist (hordered : list.Ordered) {items : Array α}
    (hsublist : items.toList.Sublist list.toList) :
    (⟨list.direction, items⟩ : SortedList α).Ordered :=
  hordered.sublist hsublist

variable [Std.TransOrd α]

theorem ordered_ofList (direction : Direction) (items : List α) :
    (ofList direction items).Ordered := by
  rw [Ordered, toList, ofList, List.toList_toArray]
  apply List.pairwise_mergeSort
  · intro first second third hfirst hsecond
    exact Direction.admits_trans hfirst hsecond
  · exact direction.admits_total

/-- An element in the middle can be replaced by a value that its neighbours admit. -/
theorem pairwise_replace {direction : Direction} {front back : List α} {resident value : α}
    (hordered : (front ++ resident :: back).Pairwise fun first second =>
      direction.admits first second = true)
    (hleft : ∀ previous ∈ front.getLast?, direction.admits previous value = true)
    (hright : ∀ next ∈ back.head?, direction.admits value next = true) :
    (front ++ value :: back).Pairwise fun first second =>
      direction.admits first second = true := by
  obtain ⟨hfront, hlater, hacross⟩ := List.pairwise_append.mp hordered
  obtain ⟨-, hback⟩ := List.pairwise_cons.mp hlater
  have hbefore : ∀ earlier ∈ front, direction.admits earlier value = true := by
    intro earlier hearlier
    rcases List.eq_nil_or_concat front with hnil | ⟨others, last, hconcat⟩
    · rw [hnil] at hearlier
      exact absurd hearlier List.not_mem_nil
    · rw [List.concat_eq_append] at hconcat
      subst hconcat
      have hlast : direction.admits last value = true := hleft last (by simp)
      rcases List.mem_append.mp hearlier with hothers | hsingle
      · have hstep := (List.pairwise_append.mp hfront).2.2 earlier hothers last (by simp)
        exact Direction.admits_trans hstep hlast
      · rw [List.mem_singleton.mp hsingle]
        exact hlast
  have hafter : ∀ later ∈ back, direction.admits value later = true := by
    intro later hmem
    cases back with
    | nil => exact absurd hmem List.not_mem_nil
    | cons next others =>
        have hnext : direction.admits value next = true := hright next rfl
        rcases List.mem_cons.mp hmem with hsame | hothers
        · rw [hsame]
          exact hnext
        · exact Direction.admits_trans hnext ((List.pairwise_cons.mp hback).1 later hothers)
  apply List.pairwise_append.mpr
  refine ⟨hfront, List.pairwise_cons.mpr ⟨hafter, hback⟩, ?_⟩
  intro earlier hearlier later hlater
  rcases List.mem_cons.mp hlater with hsame | hmem
  · rw [hsame]
    exact hbefore earlier hearlier
  · exact hacross earlier hearlier later (List.mem_cons_of_mem _ hmem)

/-! ## The lower bound -/

/-- An item divides a list at its lower bound into the elements that belong before it and
those that do not. -/
structure Divides (list : SortedList α) (item : α) (front back : List α) : Prop where
  toList_eq : list.toList = front ++ back
  lowerBound_eq : list.lowerBound item = front.length
  front_precedes : ∀ resident ∈ front, list.direction.precedes resident item = true
  back_follows : ∀ resident ∈ back, list.direction.precedes resident item = false

theorem Ordered.partitioned (hordered : list.Ordered) (item : α) :
    Sorted.Partitioned (fun resident => list.direction.precedes resident item) list.items := by
  apply hordered.imp
  intro first second hadmits hprecedes
  exact Direction.precedes_of_admits_of_precedes hadmits hprecedes

theorem Ordered.exists_divides (hordered : list.Ordered) (item : α) :
    ∃ front back, list.Divides item front back := by
  have hseparates := Sorted.separates_partitionPoint (hordered.partitioned item)
  have hbound : list.lowerBound item ≤ list.toList.length := list.lowerBound_le_size item
  refine ⟨list.toList.take (list.lowerBound item), list.toList.drop (list.lowerBound item), ?_⟩
  exact {
    toList_eq := (List.take_append_drop _ _).symm
    lowerBound_eq := by
      rw [List.length_take]
      exact (Nat.min_eq_left hbound).symm
    front_precedes := by
      intro resident hresident
      obtain ⟨index, hindex, heq⟩ := List.mem_take_iff_getElem.mp hresident
      rw [← heq]
      apply hseparates.below
      exact Nat.lt_of_lt_of_le hindex (Nat.min_le_left _ _)
    back_follows := by
      intro resident hresident
      obtain ⟨index, hindex, heq⟩ := List.mem_drop_iff_getElem.mp hresident
      rw [← heq]
      apply hseparates.above
      exact Nat.le_add_right _ _ }

variable {item : α} {front back : List α}

omit [Std.TransOrd α] in
/-- An insertion puts the item between the two parts, and its position is where it stands. -/
theorem Divides.insert (hdivides : list.Divides item front back) :
    (list.insert item).1 = front.length ∧
      (list.insert item).2.toList = front ++ item :: back ∧
        (list.insert item).2.direction = list.direction := by
  refine ⟨hdivides.lowerBound_eq, ?_, rfl⟩
  have hlist : list.items.toList = front ++ back := hdivides.toList_eq
  change (list.items.insertIdx (list.lowerBound item) item
    (list.lowerBound_le_size item)).toList = _
  rw [Array.toList_insertIdx, hlist, hdivides.lowerBound_eq]
  exact insertIdx_length front back item

theorem Ordered.insert (hordered : list.Ordered) (item : α) :
    (list.insert item).2.Ordered := by
  obtain ⟨front, back, hdivides⟩ := hordered.exists_divides item
  obtain ⟨-, hinserted, hdirection⟩ := hdivides.insert
  rw [Ordered, hdivides.toList_eq] at hordered
  obtain ⟨hfront, hback, hacross⟩ := List.pairwise_append.mp hordered
  rw [Ordered, hinserted, hdirection]
  apply List.pairwise_append.mpr
  refine ⟨hfront, List.pairwise_cons.mpr ⟨?_, hback⟩, ?_⟩
  · intro later hlater
    exact Direction.admits_of_not_precedes (hdivides.back_follows later hlater)
  · intro earlier hearlier later hlater
    rcases List.mem_cons.mp hlater with hsame | hmem
    · rw [hsame]
      exact Direction.admits_of_precedes (hdivides.front_precedes earlier hearlier)
    · exact hacross earlier hearlier later hmem

/-! ## Elements equal to an item -/

/-- An element equal to the item stands at the lower bound or nowhere. -/
theorem Ordered.find?_cases (hordered : list.Ordered) (item : α) :
    (∃ front resident back, list.toList = front ++ resident :: back ∧
      list.find? item = some front.length ∧ compare resident item = .eq ∧
        ∀ earlier ∈ front, list.direction.precedes earlier item = true) ∨
    (list.find? item = none ∧ ∀ resident ∈ list.toList, compare resident item ≠ .eq) := by
  obtain ⟨front, back, hdivides⟩ := hordered.exists_divides item
  have hparts : list.items.toList = front ++ back := hdivides.toList_eq
  have habsentFront : ∀ resident ∈ front, compare resident item ≠ .eq := fun resident hmem =>
    Direction.ne_eq_of_precedes (hdivides.front_precedes resident hmem)
  rw [find?, hdivides.lowerBound_eq, ← Array.getElem?_toList, hparts,
    List.getElem?_append_right (Nat.le_refl _), Nat.sub_self, ← List.head?_eq_getElem?]
  cases back with
  | nil =>
      right
      refine ⟨rfl, ?_⟩
      rw [hdivides.toList_eq, List.append_nil]
      exact habsentFront
  | cons resident later =>
      rw [List.head?_cons]
      dsimp only
      by_cases hequal : compare resident item = .eq
      · left
        rw [if_pos hequal]
        exact ⟨front, resident, later, hdivides.toList_eq, rfl, hequal, hdivides.front_precedes⟩
      · right
        rw [if_neg hequal]
        refine ⟨rfl, ?_⟩
        have hfollows := hdivides.back_follows resident List.mem_cons_self
        have hbehind : list.direction.precedes item resident = true :=
          Direction.precedes_of_not_precedes hfollows hequal
        rw [Ordered, hdivides.toList_eq, List.pairwise_append, List.pairwise_cons] at hordered
        intro other hother
        rw [hdivides.toList_eq, List.mem_append, List.mem_cons] at hother
        rcases hother with hmem | hsame | hmem
        · exact habsentFront other hmem
        · rw [hsame]
          exact hequal
        · -- All later elements follow one that belongs strictly behind the item.
          have hstrict : list.direction.precedes item other = true :=
            Direction.precedes_of_precedes_of_admits hbehind (hordered.2.1.1 other hmem)
          intro hsame
          exact Direction.ne_eq_of_precedes hstrict (Std.OrientedCmp.eq_symm hsame)

end SortedList

end Collections
