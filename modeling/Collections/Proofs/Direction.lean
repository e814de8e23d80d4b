import Mathlib
import Collections.Direction

/-!
# Orders in a direction

In either direction the elements of a totally ordered type are totally ordered again.
Whether one element belongs strictly before another and whether two neighbours may stand
in an order are two views of that one order.
-/

namespace Collections

universe u

namespace Direction

variable {α : Type u} [Ord α] {direction : Direction} {first second third : α}

theorem compare_reversed (direction : Direction) (first second : α) :
    direction.reversed.compare first second = direction.compare second first := by
  cases direction <;> rfl

@[simp]
theorem admits_reversed (direction : Direction) (first second : α) :
    direction.reversed.admits first second = direction.admits second first := by
  rw [admits, admits, compare_reversed]

@[simp]
theorem precedes_reversed (direction : Direction) (first second : α) :
    direction.reversed.precedes first second = direction.precedes second first := by
  rw [precedes, precedes, compare_reversed]

omit [Ord α] in
@[simp]
theorem reversed_reversed (direction : Direction) : direction.reversed.reversed = direction := by
  cases direction <;> rfl

theorem admits_iff : direction.admits first second = true ↔
    direction.compare first second ≠ .gt := by
  rw [admits, bne_iff_ne]

theorem admits_iff_isLE : direction.admits first second = true ↔
    (direction.compare first second).isLE = true := by
  rw [admits_iff, Ordering.isLE_iff_ne_gt]

theorem precedes_iff : direction.precedes first second = true ↔
    direction.compare first second = .lt := by
  rw [precedes, beq_iff_eq]

theorem admits_of_precedes (hprecedes : direction.precedes first second = true) :
    direction.admits first second = true := by
  rw [precedes_iff] at hprecedes
  rw [admits_iff, hprecedes]
  decide

variable [Std.TransOrd α]

instance : Std.TransCmp (direction.compare : α → α → Ordering) :=
  match direction with
  | .ascending => inferInstanceAs (Std.TransOrd α)
  | .descending => inferInstanceAs (Std.TransCmp fun first second : α => Ord.compare second first)

theorem compare_eq_eq_iff : direction.compare first second = .eq ↔
    Ord.compare first second = .eq := by
  cases direction with
  | ascending => rfl
  | descending => exact Std.OrientedCmp.eq_comm

/-- What does not belong before an element may stand after it. -/
theorem admits_of_not_precedes (hprecedes : direction.precedes first second = false) :
    direction.admits second first = true := by
  rw [← Bool.not_eq_true, precedes_iff] at hprecedes
  rw [admits_iff]
  intro hgreater
  exact hprecedes (Std.OrientedCmp.gt_iff_lt.mp hgreater)

/-- What may stand after an element does not belong before it. -/
theorem not_precedes_of_admits (hadmits : direction.admits first second = true) :
    direction.precedes second first = false := by
  rw [admits_iff] at hadmits
  rw [← Bool.not_eq_true, precedes_iff]
  intro hless
  exact hadmits (Std.OrientedCmp.gt_iff_lt.mpr hless)

theorem admits_iff_not_precedes : direction.admits first second = true ↔
    direction.precedes second first = false :=
  ⟨not_precedes_of_admits, admits_of_not_precedes⟩

theorem admits_trans (hfirst : direction.admits first second = true)
    (hsecond : direction.admits second third = true) : direction.admits first third = true := by
  rw [admits_iff_isLE] at hfirst hsecond ⊢
  exact Std.TransCmp.isLE_trans hfirst hsecond

theorem admits_total (direction : Direction) (first second : α) :
    (direction.admits first second || direction.admits second first) = true := by
  rw [Bool.or_eq_true]
  cases hprecedes : direction.precedes first second with
  | true => exact Or.inl (admits_of_precedes hprecedes)
  | false => exact Or.inr (admits_of_not_precedes hprecedes)

theorem precedes_of_admits_of_precedes (hfirst : direction.admits first second = true)
    (hsecond : direction.precedes second third = true) :
    direction.precedes first third = true := by
  rw [admits_iff_isLE] at hfirst
  rw [precedes_iff] at hsecond ⊢
  exact Std.TransCmp.lt_of_isLE_of_lt hfirst hsecond

theorem precedes_of_precedes_of_admits (hfirst : direction.precedes first second = true)
    (hsecond : direction.admits second third = true) :
    direction.precedes first third = true := by
  rw [precedes_iff] at hfirst ⊢
  rw [admits_iff_isLE] at hsecond
  exact Std.TransCmp.lt_of_lt_of_isLE hfirst hsecond

/-- Of two elements that are not equal one belongs before the other. -/
theorem precedes_of_not_precedes (hprecedes : direction.precedes first second = false)
    (hunequal : Ord.compare first second ≠ .eq) : direction.precedes second first = true := by
  rw [← Bool.not_eq_true, precedes_iff] at hprecedes
  rw [precedes_iff, ← Std.OrientedCmp.gt_iff_lt]
  cases hcompare : direction.compare first second with
  | lt => exact absurd hcompare hprecedes
  | eq => exact absurd (compare_eq_eq_iff.mp hcompare) hunequal
  | gt => rfl

/-- Elements that may stand in either order are equal. -/
theorem eq_of_admits (hforth : direction.admits first second = true)
    (hback : direction.admits second first = true) : Ord.compare first second = .eq := by
  by_contra hunequal
  have hprecedes := precedes_of_not_precedes (not_precedes_of_admits hback) hunequal
  rw [not_precedes_of_admits hforth] at hprecedes
  exact Bool.false_ne_true hprecedes

theorem ne_eq_of_precedes (hprecedes : direction.precedes first second = true) :
    Ord.compare first second ≠ .eq := by
  rw [precedes_iff] at hprecedes
  intro hequal
  rw [compare_eq_eq_iff.mpr hequal] at hprecedes
  exact absurd hprecedes (by decide)

end Direction

end Collections
