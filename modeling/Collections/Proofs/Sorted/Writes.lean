import Mathlib
import Collections.Proofs.Sorted.Insertion

/-!
# Removals and writes in ordered lists

A removal takes one element out of its place.  A write either leaves the list as it is,
or replaces an element between two neighbours that admit the new value, or takes the old
element out and inserts the new value at its lower bound.
-/

namespace Collections

universe u

namespace SortedList

variable {α : Type u} {list : SortedList α} {front back : List α} {resident : α}

/-! ## Removals -/

theorem removeAt_of_parts (hparts : list.toList = front ++ resident :: back) :
    (list.removeAt front.length).1 = .ok resident ∧
      (list.removeAt front.length).2.toList = front ++ back ∧
        (list.removeAt front.length).2.direction = list.direction := by
  have hbound : front.length < list.items.size := length_lt_size hparts
  have hresident : list.items[front.length] = resident := by
    have hstored := getElem?_of_parts hparts
    rw [Array.getElem?_eq_getElem hbound] at hstored
    exact Option.some.inj hstored
  rw [removeAt, dif_pos hbound]
  exact ⟨congrArg Except.ok hresident, toList_eraseIdx_of_parts hparts, rfl⟩

theorem removeAt_of_le {index : Nat} (houtside : list.length ≤ index) :
    list.removeAt index = (.error (.outOfBounds index list.length), list) := by
  have hbound : ¬ index < list.items.size := Nat.not_lt_of_le houtside
  rw [removeAt, dif_neg hbound]

variable [Ord α] {value item : α}

theorem remove_of_some (hfound : list.find? item = some front.length)
    (hparts : list.toList = front ++ resident :: back) :
    (list.remove item).1 = true ∧ (list.remove item).2.toList = front ++ back ∧
      (list.remove item).2.direction = list.direction := by
  have hbound : front.length < list.items.size := length_lt_size hparts
  rw [remove, hfound]
  refine ⟨rfl, ?_, rfl⟩
  change (list.items.eraseIdxIfInBounds front.length).toList = front ++ back
  rw [← Array.eraseIdx_eq_eraseIdxIfInBounds hbound]
  exact toList_eraseIdx_of_parts hparts

theorem remove_of_none (hmissing : list.find? item = none) :
    list.remove item = (false, list) := by
  rw [remove, hmissing]

/-! ## Writes -/

/-- A value fits between the neighbours of an element. -/
def Fits (direction : Direction) (front back : List α) (value : α) : Prop :=
  (∀ previous ∈ front.getLast?, direction.admits previous value = true) ∧
    ∀ next ∈ back.head?, direction.admits value next = true

theorem fitsAt_iff (hparts : list.toList = front ++ resident :: back) (value : α) :
    list.fitsAt front.length value = true ↔ Fits list.direction front back value := by
  have hitems : list.items.toList = front ++ resident :: back := hparts
  have hnext : list.items[front.length + 1]? = back.head? := by
    rw [← Array.getElem?_toList, hitems, List.getElem?_append_right (Nat.le_add_right _ _),
      Nat.add_sub_cancel_left, List.getElem?_cons_succ, ← List.head?_eq_getElem?]
  rw [fitsAt.eq_def, Bool.and_eq_true, hnext, Option.all_eq_true, Fits]
  apply and_congr_left'
  rcases List.eq_nil_or_concat front with hnil | ⟨others, previous, hconcat⟩
  · subst hnil
    simp
  · rw [List.concat_eq_append] at hconcat
    have hlength : front.length = others.length + 1 := by
      rw [hconcat, List.length_append, List.length_singleton]
    have hsplit : list.items.toList = others ++ previous :: resident :: back := by
      rw [hitems, hconcat, List.append_assoc, List.singleton_append]
    have hprevious : list.items[others.length]? = some previous := getElem?_of_parts hsplit
    rw [hlength, hconcat, List.getLast?_concat]
    dsimp only
    rw [hprevious, Option.all_some]
    simp

theorem set_of_le {index : Nat} (houtside : list.length ≤ index) (value : α) :
    list.set index value = .quiet list (.error (.outOfBounds index list.length)) := by
  have hbound : ¬ index < list.items.size := Nat.not_lt_of_le houtside
  rw [set, dif_neg hbound]

/-- The three outcomes of a write over an element: the value is equal to it, the value fits
in its place, or the value is inserted anew. -/
theorem set_cases (hparts : list.toList = front ++ resident :: back) (value : α) :
    (compare resident value = .eq ∧
      list.set front.length value = .quiet list (.ok front.length)) ∨
    (compare resident value ≠ .eq ∧ Fits list.direction front back value ∧
      ∃ items : Array α, items.toList = front ++ value :: back ∧
        list.set front.length value = .quiet ⟨list.direction, items⟩ (.ok front.length)) ∨
    (compare resident value ≠ .eq ∧ ¬ Fits list.direction front back value ∧
      ∃ items : Array α, items.toList = front ++ back ∧
        list.set front.length value =
          ⟨((⟨list.direction, items⟩ : SortedList α).insert value).2,
            .ok ((⟨list.direction, items⟩ : SortedList α).insert value).1,
            [.elementRepositioned front.length]⟩) := by
  have hbound : front.length < list.items.size := length_lt_size hparts
  have hresident : list.items[front.length] = resident := by
    have hstored := getElem?_of_parts hparts
    rw [Array.getElem?_eq_getElem hbound] at hstored
    exact Option.some.inj hstored
  rw [set, dif_pos hbound, hresident]
  by_cases hequal : compare resident value = .eq
  · left
    rw [if_pos hequal]
    exact ⟨hequal, rfl⟩
  right
  rw [if_neg hequal]
  by_cases hfits : list.fitsAt front.length value = true
  · left
    rw [if_pos hfits]
    exact ⟨hequal, (fitsAt_iff hparts value).mp hfits, _, toList_set_of_parts hparts value, rfl⟩
  · right
    rw [if_neg hfits]
    have hunfit : ¬ Fits list.direction front back value := fun hneighbours =>
      hfits ((fitsAt_iff hparts value).mpr hneighbours)
    exact ⟨hequal, hunfit, _, toList_eraseIdx_of_parts hparts, rfl⟩

variable [Std.TransOrd α]

theorem Ordered.set (hordered : list.Ordered) (index : Nat) (value : α) :
    (list.set index value).state.Ordered := by
  by_cases hindex : index < list.items.size
  · obtain ⟨front, back, hparts, hlength⟩ := exists_parts hindex
    subst hlength
    have hwhole := hordered
    rw [Ordered, show list.toList = _ from hparts] at hwhole
    rcases set_cases hparts value with ⟨-, hset⟩ | ⟨-, hfits, items, hitems, hset⟩ |
      ⟨-, -, items, hitems, hset⟩
    · rw [hset]
      exact hordered
    · rw [hset]
      change items.toList.Pairwise _
      rw [hitems]
      exact pairwise_replace hwhole hfits.1 hfits.2
    · rw [hset]
      apply Ordered.insert
      apply hordered.of_sublist
      rw [hitems, show list.toList = _ from hparts]
      exact sublist_of_parts front back _
  · rw [set_of_le (Nat.le_of_not_lt hindex)]
    exact hordered

end SortedList

end Collections
