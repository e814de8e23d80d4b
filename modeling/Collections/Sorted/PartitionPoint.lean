/-!
# Partition points

When the items of an array that satisfy a condition all come before those that
do not, the partition point is the index of the first that does not.  It is
found by halving an interval `[low, high)` that keeps satisfying items on its left
and failing ones on its right.
-/

namespace Collections.Sorted

universe u

variable {α : Type u} (before : α → Bool) (items : Array α)

def partitionPointIn (low high : Nat) (hhigh : high ≤ items.size) : Nat :=
  if hopen : low < high then
    have hmiddle : low + (high - low) / 2 < items.size := by omega
    if before items[low + (high - low) / 2] then
      partitionPointIn (low + (high - low) / 2 + 1) high hhigh
    else
      partitionPointIn low (low + (high - low) / 2) (by omega)
  else
    low
termination_by high - low

def partitionPoint : Nat :=
  partitionPointIn before items 0 items.size (Nat.le_refl _)

theorem partitionPointIn_le (low high : Nat) (hhigh : high ≤ items.size) (hlow : low ≤ high) :
    partitionPointIn before items low high hhigh ≤ high := by
  fun_induction partitionPointIn before items low high hhigh <;> omega

theorem partitionPoint_le_size : partitionPoint before items ≤ items.size :=
  partitionPointIn_le before items 0 items.size (Nat.le_refl _) (Nat.zero_le _)

end Collections.Sorted
