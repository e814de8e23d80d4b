import Mathlib
import Collections.Sorted.PartitionPoint

/-!
# Partition points separate

The search for a partition point keeps an interval with satisfying items below it and
failing items above it.  In an array whose satisfying items come first, the interval
closes at the point that separates the two.
-/

namespace Collections.Sorted

universe u

variable {α : Type u} {before : α → Bool} {items : Array α}

/-- The items that satisfy a condition come before those that do not. -/
def Partitioned (before : α → Bool) (items : Array α) : Prop :=
  items.toList.Pairwise fun first second => before second = true → before first = true

theorem Partitioned.of_le (hpartitioned : Partitioned before items) {low high : Nat}
    (hle : low ≤ high) (hhigh : high < items.size) (hbefore : before items[high] = true) :
    before items[low] = true := by
  rcases Nat.eq_or_lt_of_le hle with heq | hlt
  · subst heq
    exact hbefore
  · exact List.pairwise_iff_getElem.mp hpartitioned low high (Nat.lt_trans hlt hhigh) hhigh hlt
      hbefore

/-- Below an interval all items satisfy the condition, and from its end on none does. -/
structure Separates (before : α → Bool) (items : Array α) (low high : Nat) : Prop where
  below : ∀ (index : Nat) (hindex : index < items.size), index < low →
    before items[index] = true
  above : ∀ (index : Nat) (hindex : index < items.size), high ≤ index →
    before items[index] = false

theorem Separates.raiseLow {low high middle : Nat}
    (hseparates : Separates before items low high) (hpartitioned : Partitioned before items)
    (hmiddle : middle < items.size) (hbefore : before items[middle] = true) :
    Separates before items (middle + 1) high where
  below _ _ hlow := hpartitioned.of_le (Nat.le_of_lt_succ hlow) hmiddle hbefore
  above := hseparates.above

theorem Separates.lowerHigh {low high middle : Nat}
    (hseparates : Separates before items low high) (hpartitioned : Partitioned before items)
    (hmiddle : middle < items.size) (hafter : ¬ before items[middle] = true) :
    Separates before items low middle where
  below := hseparates.below
  above index hindex hhigh := by
    rw [← Bool.not_eq_true]
    intro hbefore
    exact hafter (hpartitioned.of_le hhigh hindex hbefore)

/-- Halving an interval that separates the items ends at a point that does. -/
theorem Separates.partitionPointIn (hpartitioned : Partitioned before items) (low high : Nat)
    (hhigh : high ≤ items.size) (hle : low ≤ high)
    (hseparates : Separates before items low high) :
    Separates before items (partitionPointIn before items low high hhigh)
      (partitionPointIn before items low high hhigh) := by
  fun_induction Sorted.partitionPointIn before items low high hhigh with
  | case1 low high hhigh hopen hmiddle hbefore ih =>
      apply ih (by omega)
      exact hseparates.raiseLow hpartitioned hmiddle hbefore
  | case2 low high hhigh hopen hmiddle hafter ih =>
      apply ih (by omega)
      exact hseparates.lowerHigh hpartitioned hmiddle hafter
  | case3 low high hhigh hclosed =>
      have hequal : low = high := Nat.le_antisymm hle (Nat.le_of_not_lt hclosed)
      subst hequal
      exact hseparates

theorem separates_partitionPoint (hpartitioned : Partitioned before items) :
    Separates before items (partitionPoint before items) (partitionPoint before items) := by
  apply Separates.partitionPointIn hpartitioned 0 items.size _ (Nat.zero_le _)
  exact {
    below := fun index _ hlow => absurd hlow (Nat.not_lt_zero index)
    above := fun index hindex hhigh => absurd hindex (Nat.not_lt_of_le hhigh) }

end Collections.Sorted
