import Mathlib
import Collections.Proofs.Sorted.Repositioning

/-!
# The first of the equal elements

In an ordered list an insertion, a search and a removal agree on which of several equal elements
is meant: the one in front of all others.  An item is inserted there, so it is found there and
taken out from there by the next call with an item equal to it, and the list is what it was.
-/

namespace Collections

universe u

namespace SortedList

variable {α : Type u} [Ord α]

/-- The least index at which an element stands that is equal to an item. -/
structure FirstEqual (items : List α) (item : α) (index : Nat) : Prop where
  equal : ∃ resident, items[index]? = some resident ∧ compare resident item = .eq
  least : ∀ (other : Nat) resident, items[other]? = some resident →
    compare resident item = .eq → index ≤ other

/-- What the calls do with an item, and that they mean the same element. -/
structure MeetsFirst (list : SortedList α) (item : α) : Prop where
  /-- The position of a new item is the number of the elements that belong strictly before it. -/
  position_eq : (list.insert item).1 = list.toList.countP (list.direction.precedes · item)
  inserted_eq : (list.insert item).2.toList = list.toList.insertIdx (list.insert item).1 item
  direction_insert : (list.insert item).2.direction = list.direction
  inserted_first : FirstEqual (list.insert item).2.toList item (list.insert item).1
  find?_eq_some_iff : ∀ index, list.find? item = some index ↔ FirstEqual list.toList item index
  find?_eq_none_iff : list.find? item = none ↔
    ∀ resident ∈ list.toList, compare resident item ≠ .eq
  remove_eq_true_iff : (list.remove item).1 = true ↔
    ∃ resident ∈ list.toList, compare resident item = .eq
  removed_eq : ∀ index, FirstEqual list.toList item index →
    (list.remove item).2.toList = list.toList.eraseIdx index
  direction_remove : (list.remove item).2.direction = list.direction
  kept : (list.remove item).1 = false → (list.remove item).2 = list
  /-- Any item equal to the new one takes it out again. -/
  restored : ∀ other, compare other item = .eq →
    (list.insert item).2.remove other = (true, list)

/-! ## The first equal element -/

section FirstEqual

variable {items front back : List α} {item other resident : α} {index : Nat}

theorem FirstEqual.unique (hfirst : FirstEqual items item index) {another : Nat}
    (hsecond : FirstEqual items item another) : index = another := by
  obtain ⟨resident, hresident, hequal⟩ := hfirst.equal
  obtain ⟨second, hstored, hsame⟩ := hsecond.equal
  exact Nat.le_antisymm (hfirst.least another second hstored hsame)
    (hsecond.least index resident hresident hequal)

theorem FirstEqual.of_parts (hequal : compare resident item = .eq)
    (hfront : ∀ earlier ∈ front, compare earlier item ≠ .eq) :
    FirstEqual (front ++ resident :: back) item front.length where
  equal := ⟨resident, by simp, hequal⟩
  least := by
    intro other stored hstored hsame
    by_contra hearlier
    rw [List.getElem?_append_left (Nat.lt_of_not_le hearlier)] at hstored
    exact hfront stored (List.mem_of_getElem? hstored) hsame

theorem FirstEqual.exists_mem (hfirst : FirstEqual items item index) :
    ∃ resident ∈ items, compare resident item = .eq := by
  obtain ⟨resident, hresident, hequal⟩ := hfirst.equal
  exact ⟨resident, List.mem_of_getElem? hresident, hequal⟩

/-- Which element is the first does not depend on the instance of the item. -/
theorem FirstEqual.congr [Std.TransOrd α] (hfirst : FirstEqual items item index)
    (hsame : compare other item = .eq) : FirstEqual items other index where
  equal := by
    obtain ⟨resident, hresident, hequal⟩ := hfirst.equal
    exact ⟨resident, hresident, Std.TransCmp.eq_trans hequal (Std.OrientedCmp.eq_symm hsame)⟩
  least := by
    intro another resident hresident hequal
    exact hfirst.least another resident hresident (Std.TransCmp.eq_trans hequal hsame)

end FirstEqual

/-! ## Insertions, searches and removals -/

variable {list : SortedList α} {item other : α} {front back : List α}

theorem Divides.countP_precedes (hdivides : list.Divides item front back) :
    list.toList.countP (list.direction.precedes · item) = front.length := by
  rw [hdivides.toList_eq]
  exact countP_parts hdivides.front_precedes hdivides.back_follows

variable [Std.TransOrd α]

/-- An ordered list is divided at the only place where all elements before it belong before the
item and no other element does. -/
theorem Ordered.divides_of_parts (hordered : list.Ordered) (hparts : list.toList = front ++ back)
    (hfront : ∀ resident ∈ front, list.direction.precedes resident item = true)
    (hback : ∀ resident ∈ back, list.direction.precedes resident item = false) :
    list.Divides item front back := by
  obtain ⟨ahead, behind, hdivides⟩ := hordered.exists_divides item
  have hlength : ahead.length = front.length := by
    rw [← hdivides.countP_precedes, hparts, countP_parts hfront hback]
  exact {
    toList_eq := hparts
    lowerBound_eq := hdivides.lowerBound_eq.trans hlength
    front_precedes := hfront
    back_follows := hback }

/-- A new item stands in front of all elements that are equal to it. -/
theorem Divides.firstEqual_insert (hdivides : list.Divides item front back) :
    FirstEqual (list.insert item).2.toList item (list.insert item).1 := by
  obtain ⟨hposition, hinserted, -⟩ := hdivides.insert
  rw [hposition, hinserted]
  apply FirstEqual.of_parts Std.ReflCmp.compare_self
  exact fun earlier hearlier => Direction.ne_eq_of_precedes
    (hdivides.front_precedes earlier hearlier)

/-- An item is found at the first element equal to it, or there is none. -/
theorem Ordered.find?_firstEqual (hordered : list.Ordered) (item : α) :
    (∃ front resident back, list.toList = front ++ resident :: back ∧
      list.find? item = some front.length ∧ FirstEqual list.toList item front.length) ∨
    (list.find? item = none ∧ ∀ resident ∈ list.toList, compare resident item ≠ .eq) := by
  rcases hordered.find?_cases item with
    ⟨front, resident, back, hparts, hfound, hequal, hfront⟩ | habsent
  · left
    refine ⟨front, resident, back, hparts, hfound, ?_⟩
    rw [hparts]
    apply FirstEqual.of_parts hequal
    exact fun earlier hearlier => Direction.ne_eq_of_precedes (hfront earlier hearlier)
  · exact Or.inr habsent

theorem Ordered.find?_eq_some_iff (hordered : list.Ordered) {index : Nat} :
    list.find? item = some index ↔ FirstEqual list.toList item index := by
  rcases hordered.find?_firstEqual item with
    ⟨front, resident, back, -, hfound, hfirst⟩ | ⟨hmissing, habsent⟩
  · rw [hfound, Option.some.injEq]
    exact ⟨fun hsame => hsame ▸ hfirst, fun hother => hfirst.unique hother⟩
  · rw [hmissing]
    apply iff_of_false (by simp)
    intro hfirst
    obtain ⟨resident, hresident, hequal⟩ := hfirst.exists_mem
    exact habsent resident hresident hequal

theorem Ordered.find?_eq_none_iff (hordered : list.Ordered) :
    list.find? item = none ↔ ∀ resident ∈ list.toList, compare resident item ≠ .eq := by
  rcases hordered.find?_firstEqual item with
    ⟨front, resident, back, -, hfound, hfirst⟩ | ⟨hmissing, habsent⟩
  · rw [hfound]
    apply iff_of_false (by simp)
    intro habsent
    obtain ⟨resident, hresident, hequal⟩ := hfirst.exists_mem
    exact habsent resident hresident hequal
  · exact iff_of_true hmissing habsent

/-- A removal takes out the first element equal to the item, or there is none. -/
theorem Ordered.remove_cases (hordered : list.Ordered) (item : α) :
    (∃ index, FirstEqual list.toList item index ∧ (list.remove item).1 = true ∧
      (list.remove item).2.toList = list.toList.eraseIdx index ∧
        (list.remove item).2.direction = list.direction) ∨
    ((∀ resident ∈ list.toList, compare resident item ≠ .eq) ∧
      list.remove item = (false, list)) := by
  rcases hordered.find?_firstEqual item with
    ⟨front, resident, back, hparts, hfound, hfirst⟩ | ⟨hmissing, habsent⟩
  · left
    obtain ⟨hanswer, hrest, hdirection⟩ := remove_of_some hfound hparts
    refine ⟨front.length, hfirst, hanswer, ?_, hdirection⟩
    rw [hrest, hparts, eraseIdx_length]
  · exact Or.inr ⟨habsent, remove_of_none hmissing⟩

/-- What was inserted last is what any item equal to it takes out. -/
theorem Ordered.remove_insert (hordered : list.Ordered) (hsame : compare other item = .eq) :
    (list.insert item).2.remove other = (true, list) := by
  obtain ⟨front, back, hdivides⟩ := hordered.exists_divides item
  obtain ⟨hposition, hinserted, hdirection⟩ := hdivides.insert
  have hfound : (list.insert item).2.find? other = some front.length := by
    rw [(hordered.insert item).find?_eq_some_iff, ← hposition]
    exact hdivides.firstEqual_insert.congr hsame
  obtain ⟨hanswer, hrest, hkept⟩ := remove_of_some hfound hinserted
  refine Prod.ext hanswer (eq_of_toList (hkept.trans hdirection) ?_)
  rw [hrest, hdivides.toList_eq]

/-- What a removal does with the first element equal to the item. -/
theorem Ordered.remove_of_firstEqual (hordered : list.Ordered) {index : Nat}
    (hfirst : FirstEqual list.toList item index) : (list.remove item).1 = true ∧
      (list.remove item).2.toList = list.toList.eraseIdx index := by
  rcases hordered.remove_cases item with ⟨least, hleast, hanswer, hrest, -⟩ | ⟨habsent, -⟩
  · rw [hfirst.unique hleast]
    exact ⟨hanswer, hrest⟩
  · obtain ⟨resident, hresident, hequal⟩ := hfirst.exists_mem
    exact absurd hequal (habsent resident hresident)

theorem Ordered.remove_eq_true_iff (hordered : list.Ordered) : (list.remove item).1 = true ↔
    ∃ resident ∈ list.toList, compare resident item = .eq := by
  rcases hordered.remove_cases item with ⟨least, hleast, hanswer, -⟩ | ⟨habsent, hkept⟩
  · exact iff_of_true hanswer hleast.exists_mem
  · rw [hkept]
    apply iff_of_false Bool.false_ne_true
    rintro ⟨resident, hresident, hequal⟩
    exact habsent resident hresident hequal

/-- In an ordered list of either direction all calls with an item mean the first of the elements
equal to it, and a new item becomes the first of them. -/
theorem Ordered.meetsFirst (hordered : list.Ordered) (item : α) : list.MeetsFirst item := by
  obtain ⟨front, back, hdivides⟩ := hordered.exists_divides item
  obtain ⟨hposition, hinserted, hdirection⟩ := hdivides.insert
  exact {
    position_eq := by rw [hposition, hdivides.countP_precedes]
    inserted_eq := by rw [hposition, hinserted, hdivides.toList_eq, insertIdx_length]
    direction_insert := hdirection
    inserted_first := hdivides.firstEqual_insert
    find?_eq_some_iff := fun index => hordered.find?_eq_some_iff
    find?_eq_none_iff := hordered.find?_eq_none_iff
    remove_eq_true_iff := hordered.remove_eq_true_iff
    removed_eq := fun index hfirst => (hordered.remove_of_firstEqual hfirst).2
    direction_remove := by
      rcases hordered.remove_cases item with ⟨-, -, -, -, hsame⟩ | ⟨-, hkept⟩
      · exact hsame
      · rw [hkept]
    kept := by
      intro hanswer
      rcases hordered.remove_cases item with ⟨-, -, hremoved, -⟩ | ⟨-, hkept⟩
      · rw [hremoved] at hanswer
        exact absurd hanswer.symm Bool.false_ne_true
      · rw [hkept]
    restored := fun other hsame => hordered.remove_insert hsame }

/-- A downward list with three elements that are equal to each other. -/
def stackedList : SortedList Element :=
  ⟨.descending, #[.tagged 3 1, .tagged 2 2, .tagged 2 3, .tagged 2 4, .tagged 1 5]⟩

theorem meetsFirst_stackedList :
    stackedList.Ordered ∧ (stackedList.insert (.tagged 2 6)).1 = 1 ∧
      stackedList.find? (.tagged 2 6) = some 1 ∧
        (stackedList.insert (.tagged 2 6)).2.remove (.tagged 2 7) = (true, stackedList) ∧
          stackedList.MeetsFirst (.tagged 2 6) := by
  have hordered : stackedList.Ordered := by decide
  have hmeets := Ordered.meetsFirst hordered (.tagged 2 6)
  have hposition : (stackedList.insert (.tagged 2 6)).1 = 1 := by
    rw [hmeets.position_eq]
    decide
  exact ⟨hordered, hposition, by cbv, hmeets.restored (.tagged 2 7) (by decide), hmeets⟩

end SortedList

end Collections
