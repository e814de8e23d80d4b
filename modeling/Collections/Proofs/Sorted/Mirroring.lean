import Mathlib
import Collections.Proofs.Sorted.LowerBound

/-!
# The last of the equal elements

Between two reversals every call runs in the opposite direction, so it meets the elements from
the other end.  What it does at the front of a run of equal elements, it then does behind it: an
item is inserted at its upper bound, and a search or a removal means the last element equal to
the item.
-/

namespace Collections

universe u

namespace SortedList

variable {α : Type u} [Ord α]

/-- The number of elements that do not belong after an item. -/
def upperBound (list : SortedList α) (item : α) : Nat :=
  list.toList.countP (list.direction.admits · item)

/-- The greatest index at which an element stands that is equal to an item. -/
structure LastEqual (items : List α) (item : α) (index : Nat) : Prop where
  equal : ∃ resident, items[index]? = some resident ∧ compare resident item = .eq
  greatest : ∀ (other : Nat) resident, items[other]? = some resident →
    compare resident item = .eq → other ≤ index

/-- What the calls between two reversals do with an item. -/
structure MeetsLast (list : SortedList α) (item : α) : Prop where
  /-- The item is placed behind all elements that do not belong after it. -/
  inserted_eq : (list.reverse.insert item).2.reverse.toList =
    list.toList.insertIdx (list.upperBound item) item
  ahead : ∀ resident ∈ list.toList.take (list.upperBound item),
    list.direction.admits resident item = true
  behind : ∀ resident ∈ list.toList.drop (list.upperBound item),
    list.direction.admits resident item = false
  /-- The inner insertion counts from the other end. -/
  position_eq : (list.reverse.insert item).1 + list.upperBound item = list.length
  /-- An insertion without reversals places the item in front of the elements equal to it. -/
  upperBound_eq : list.upperBound item =
    (list.insert item).1 + Sorted.countEqual item list.toList
  direction_insert : (list.reverse.insert item).2.reverse.direction = list.direction
  find?_eq_some_iff : ∀ position, list.reverse.find? item = some position ↔
    ∃ index, LastEqual list.toList item index ∧ index + position + 1 = list.length
  find?_eq_none_iff : list.reverse.find? item = none ↔
    ∀ resident ∈ list.toList, compare resident item ≠ .eq
  remove_eq_true_iff : (list.reverse.remove item).1 = true ↔
    ∃ resident ∈ list.toList, compare resident item = .eq
  exists_last : (list.reverse.remove item).1 = true → ∃ index, LastEqual list.toList item index
  removed_eq : ∀ index, LastEqual list.toList item index →
    (list.reverse.remove item).2.reverse.toList = list.toList.eraseIdx index
  direction_remove : (list.reverse.remove item).2.reverse.direction = list.direction
  kept : (list.reverse.remove item).1 = false → (list.reverse.remove item).2.reverse = list

/-! ## Reversals -/

section Reversals

variable {list : SortedList α} {items : List α} {item : α} {index position : Nat}

omit [Ord α] in
theorem reverse_reverse (list : SortedList α) : list.reverse.reverse = list := by
  apply eq_of_toList
  · rw [direction_reverse, direction_reverse, Direction.reversed_reversed]
  · rw [toList_reverse, toList_reverse, List.reverse_reverse]

omit [Ord α] in
/-- What is taken out of a reversed list is missing from the other end. -/
theorem reverse_eraseIdx_reverse (hmirror : index + position + 1 = items.length) :
    (items.reverse.eraseIdx position).reverse = items.eraseIdx index := by
  have hindex : index < items.toArray.size := by
    rw [List.size_toArray]
    omega
  obtain ⟨front, back, hparts, rfl⟩ := exists_parts hindex
  generalize items.toArray[front.length] = resident at hparts
  obtain rfl : items = front ++ resident :: back := hparts
  have hposition : position = back.reverse.length := by
    rw [List.length_append, List.length_cons] at hmirror
    rw [List.length_reverse]
    omega
  calc
    ((front ++ resident :: back).reverse.eraseIdx position).reverse =
        ((back.reverse ++ resident :: front.reverse).eraseIdx back.reverse.length).reverse := by
      rw [hposition, List.reverse_append, List.reverse_cons, List.append_assoc,
        List.singleton_append]
    _ = front ++ back := by
      rw [eraseIdx_length, List.reverse_append, List.reverse_reverse, List.reverse_reverse]
    _ = (front ++ resident :: back).eraseIdx front.length := (eraseIdx_length _ _ _).symm

/-- The first of the equal elements is the last one when it is seen from the other end. -/
theorem firstEqual_reverse_iff : FirstEqual items.reverse item position ↔
    ∃ index, LastEqual items item index ∧ index + position + 1 = items.length := by
  constructor
  · intro hfirst
    obtain ⟨resident, hresident, hequal⟩ := hfirst.equal
    have hbound : position < items.length := by
      rw [← List.length_reverse]
      exact (List.getElem?_eq_some_iff.mp hresident).1
    have hmirror : items.length - 1 - position + position + 1 = items.length := by omega
    refine ⟨items.length - 1 - position, ⟨⟨resident, ?_, hequal⟩, ?_⟩, hmirror⟩
    · exact (List.getElem?_reverse' (by omega)).symm.trans hresident
    · intro other stored hstored hsame
      have hother := (List.getElem?_eq_some_iff.mp hstored).1
      have hleast := hfirst.least (items.length - 1 - other) stored
        ((List.getElem?_reverse' (by omega)).trans hstored) hsame
      omega
  · rintro ⟨index, hlast, hmirror⟩
    obtain ⟨resident, hresident, hequal⟩ := hlast.equal
    refine ⟨⟨resident, (List.getElem?_reverse' (by omega)).trans hresident, hequal⟩, ?_⟩
    intro other stored hstored hsame
    have hother : other < items.length := by
      rw [← List.length_reverse]
      exact (List.getElem?_eq_some_iff.mp hstored).1
    rw [List.getElem?_reverse' (show other + (items.length - 1 - other) + 1 = _ by omega)]
      at hstored
    have hgreatest := hlast.greatest _ stored hstored hsame
    omega

end Reversals

/-! ## Upper bounds -/

section UpperBounds

variable [Std.TransOrd α] {list : SortedList α} {item : α} {front back : List α}

/-- Between the lower and the upper bound there is room for the elements equal to the item. -/
theorem countP_admits (direction : Direction) (item : α) (items : List α) :
    items.countP (direction.admits · item) =
      items.countP (direction.precedes · item) + Sorted.countEqual item items := by
  induction items with
  | nil => rfl
  | cons resident items ih =>
      have hequal : (compare resident item == .eq) = (direction.compare resident item == .eq) := by
        rw [Bool.eq_iff_iff, beq_iff_eq, beq_iff_eq, Direction.compare_eq_eq_iff]
      rw [Sorted.countEqual] at ih ⊢
      rw [List.countP_cons, List.countP_cons, List.countP_cons, ih, hequal, Direction.admits,
        Direction.precedes]
      cases direction.compare resident item <;> simp <;> omega

omit [Std.TransOrd α] in
theorem Divides.toList_of_reverse (hdivides : list.reverse.Divides item front back) :
    list.toList = back.reverse ++ front.reverse := by
  rw [← List.reverse_append, ← hdivides.toList_eq, toList_reverse, List.reverse_reverse]

/-- What belongs before the item in the opposite direction belongs after it. -/
theorem Divides.not_admits_of_reverse (hdivides : list.reverse.Divides item front back) :
    ∀ resident ∈ front.reverse, list.direction.admits resident item = false := by
  intro resident hresident
  have hprecedes := hdivides.front_precedes resident (List.mem_reverse.mp hresident)
  rw [direction_reverse, Direction.precedes_reversed] at hprecedes
  rw [← Bool.not_eq_true, Direction.admits_iff_not_precedes, Bool.not_eq_false]
  exact hprecedes

theorem Divides.admits_of_reverse (hdivides : list.reverse.Divides item front back) :
    ∀ resident ∈ back.reverse, list.direction.admits resident item = true := by
  intro resident hresident
  have hfollows := hdivides.back_follows resident (List.mem_reverse.mp hresident)
  rw [direction_reverse, Direction.precedes_reversed] at hfollows
  exact Direction.admits_of_not_precedes hfollows

/-- The reversed list is divided at the upper bound, counted from the other end. -/
theorem Divides.upperBound_eq (hdivides : list.reverse.Divides item front back) :
    list.upperBound item = back.reverse.length := by
  rw [upperBound, hdivides.toList_of_reverse]
  exact countP_parts hdivides.admits_of_reverse hdivides.not_admits_of_reverse

/-- Between two reversals an item is inserted at the upper bound. -/
theorem Divides.insert_reverse (hdivides : list.reverse.Divides item front back) :
    (list.reverse.insert item).2.reverse.toList =
      list.toList.insertIdx (list.upperBound item) item := by
  obtain ⟨-, hinserted, -⟩ := hdivides.insert
  rw [toList_reverse, hinserted, hdivides.upperBound_eq, hdivides.toList_of_reverse,
    insertIdx_length, List.reverse_append, List.reverse_cons, List.append_assoc,
    List.singleton_append]

end UpperBounds

/-! ## Calls between two reversals -/

variable [Std.TransOrd α] {list : SortedList α}

/-- A removal between two reversals takes out the last of the equal elements. -/
theorem Ordered.remove_of_lastEqual (hordered : list.Ordered) {item : α} {index : Nat}
    (hlast : LastEqual list.toList item index) : (list.reverse.remove item).1 = true ∧
      (list.reverse.remove item).2.reverse.toList = list.toList.eraseIdx index := by
  obtain ⟨resident, hresident, -⟩ := hlast.equal
  have hindex := (List.getElem?_eq_some_iff.mp hresident).1
  have hmirror : index + (list.toList.length - 1 - index) + 1 = list.toList.length := by omega
  have hfirst := firstEqual_reverse_iff.mpr ⟨index, hlast, hmirror⟩
  rw [← toList_reverse] at hfirst
  obtain ⟨hanswer, hrest⟩ := hordered.reverse.remove_of_firstEqual hfirst
  refine ⟨hanswer, ?_⟩
  rw [toList_reverse, hrest, toList_reverse, reverse_eraseIdx_reverse hmirror]

/-- In an ordered list of either direction all calls between two reversals mean the last of the
elements equal to the item, and a new item is placed behind them. -/
theorem Ordered.meetsLast (hordered : list.Ordered) (item : α) : list.MeetsLast item := by
  obtain ⟨front, back, hdivides⟩ := hordered.reverse.exists_divides item
  obtain ⟨ahead, behind, hdirect⟩ := hordered.exists_divides item
  obtain ⟨hposition, -, hdirection⟩ := hdivides.insert
  have hremoval := hordered.reverse.remove_cases item
  exact {
    inserted_eq := hdivides.insert_reverse
    ahead := by
      rw [hdivides.upperBound_eq, hdivides.toList_of_reverse, List.take_left]
      exact hdivides.admits_of_reverse
    behind := by
      rw [hdivides.upperBound_eq, hdivides.toList_of_reverse, List.drop_left]
      exact hdivides.not_admits_of_reverse
    position_eq := by
      have hlength : list.length = list.toList.length := Array.length_toList.symm
      rw [hposition, hdivides.upperBound_eq, hlength, hdivides.toList_of_reverse,
        List.length_append, List.length_reverse, List.length_reverse, Nat.add_comm]
    upperBound_eq := by
      rw [upperBound, countP_admits, hdirect.countP_precedes, hdirect.insert.1]
    direction_insert := by
      rw [direction_reverse, hdirection, direction_reverse, Direction.reversed_reversed]
    find?_eq_some_iff := by
      intro position
      rw [hordered.reverse.find?_eq_some_iff, toList_reverse, firstEqual_reverse_iff]
      rfl
    find?_eq_none_iff := by
      rw [hordered.reverse.find?_eq_none_iff, toList_reverse]
      simp only [List.mem_reverse]
    remove_eq_true_iff := by
      rw [hordered.reverse.remove_eq_true_iff, toList_reverse]
      simp only [List.mem_reverse]
    exists_last := by
      intro hanswer
      rcases hremoval with ⟨position, hfirst, -⟩ | ⟨-, hkept⟩
      · rw [toList_reverse] at hfirst
        obtain ⟨index, hlast, -⟩ := firstEqual_reverse_iff.mp hfirst
        exact ⟨index, hlast⟩
      · rw [hkept] at hanswer
        exact absurd hanswer Bool.false_ne_true
    removed_eq := fun index hlast => (hordered.remove_of_lastEqual hlast).2
    direction_remove := by
      rw [direction_reverse, (hordered.reverse.sublist_remove item).2, direction_reverse,
        Direction.reversed_reversed]
    kept := by
      intro hanswer
      rcases hremoval with ⟨-, -, hremoved, -⟩ | ⟨-, hkept⟩
      · rw [hremoved] at hanswer
        exact absurd hanswer.symm Bool.false_ne_true
      · rw [hkept, reverse_reverse] }

/-- An upward list with three elements that are equal to each other. -/
def risingList : SortedList Element :=
  ⟨.ascending, #[.tagged 1 1, .tagged 2 2, .tagged 2 3, .tagged 2 4, .tagged 3 5]⟩

theorem meetsLast_risingList :
    risingList.Ordered ∧ risingList.upperBound (.tagged 2 6) = 4 ∧
      (risingList.reverse.insert (.tagged 2 6)).1 = 1 ∧
        risingList.reverse.find? (.tagged 2 6) = some 1 ∧
          (risingList.reverse.remove (.tagged 2 6)).2.reverse.toList =
            [.tagged 1 1, .tagged 2 2, .tagged 2 3, .tagged 3 5] ∧
          risingList.MeetsLast (.tagged 2 6) := by
  have hordered : risingList.Ordered := by decide
  have hmeets := Ordered.meetsLast hordered (.tagged 2 6)
  have hupper : risingList.upperBound (.tagged 2 6) = 4 := by decide
  have hposition := hmeets.position_eq
  rw [hupper] at hposition
  exact ⟨hordered, hupper, Nat.add_right_cancel hposition, by cbv, by cbv, hmeets⟩

end SortedList

end Collections
