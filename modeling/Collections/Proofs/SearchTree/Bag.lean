import Mathlib
import Collections.Proofs.Run
import Collections.SearchTree.Multiset

/-!
# Bags

What a search tree with repetitions stands for: for each value that is present, the
instance that was added first and a positive count.  The order of the entries has no
meaning.
-/

namespace Collections

universe u

structure Bag (α : Type u) [Ord α] where
  /-- An instance of each value with its count. -/
  entries : List (α × Nat)
  distinct : entries.Pairwise fun first second => compare first.1 second.1 ≠ .eq
  positive : ∀ entry ∈ entries, 0 < entry.2

/-- A call that can change a bag. -/
inductive BagCall (α : Type u) where
  | add (value : α)
  | extend (values : List α)
  | remove (value : α)
  | clear

namespace Bag

variable {α : Type u} [Ord α]

def empty : Bag α :=
  ⟨[], .nil, fun _ hentry => absurd hentry List.not_mem_nil⟩

/-- Whether an entry is that of a value. -/
def hasKey (value : α) (entry : α × Nat) : Bool :=
  (compare value entry.1).isEq

variable (bag : Bag α)

def find? (value : α) : Option (α × Nat) :=
  bag.entries.find? (hasKey value)

/-- How often a value is in the bag. -/
def count (value : α) : Nat :=
  ((bag.find? value).map Prod.snd).getD 0

/-- The number of values, each as often as it is in the bag. -/
def size : Nat :=
  (bag.entries.map Prod.snd).sum

def instances : List α :=
  bag.entries.map Prod.fst

/-! ## Changes -/

/-- An entry after one more addition of a value. -/
def raised (value : α) (entry : α × Nat) : α × Nat :=
  if hasKey value entry then (entry.1, entry.2 + 1) else entry

/-- An entry after a removal of a value, unless that used it up. -/
def lowered (value : α) (entry : α × Nat) : Option (α × Nat) :=
  if hasKey value entry then
    if entry.2 = 1 then none else some (entry.1, entry.2 - 1)
  else
    some entry

theorem fst_raised (value : α) (entry : α × Nat) : (raised value entry).1 = entry.1 := by
  rw [raised]
  split <;> rfl

theorem fst_of_lowered {value : α} {entry rest : α × Nat}
    (hlowered : lowered value entry = some rest) : rest.1 = entry.1 := by
  rw [lowered] at hlowered
  split at hlowered
  · split at hlowered
    · simp at hlowered
    · rw [← Option.some.inj hlowered]
  · rw [Option.some.inj hlowered]

theorem map_raised_eq_self {value : α} {entries : List (α × Nat)}
    (hothers : ∀ entry ∈ entries, hasKey value entry = false) :
    entries.map (raised value) = entries := by
  calc
    entries.map (raised value) = entries.map id := by
      apply List.map_congr_left
      intro entry hentry
      rw [raised, hothers entry hentry, if_neg Bool.false_ne_true, id]
    _ = entries := List.map_id entries

theorem filterMap_lowered_eq_self {value : α} {entries : List (α × Nat)}
    (hothers : ∀ entry ∈ entries, hasKey value entry = false) :
    entries.filterMap (lowered value) = entries := by
  calc
    entries.filterMap (lowered value) = entries.filterMap some := by
      apply List.filterMap_congr
      intro entry hentry
      rw [lowered, hothers entry hentry, if_neg Bool.false_ne_true]
    _ = entries := List.filterMap_some

/-- The bag with one instance of a value that was not in it. -/
def insert (value : α) (habsent : bag.find? value = none) : Bag α where
  entries := (value, 1) :: bag.entries
  distinct := by
    apply List.pairwise_cons.mpr ⟨?_, bag.distinct⟩
    intro entry hentry hequal
    have hother := List.find?_eq_none.mp habsent entry hentry
    rw [hasKey, hequal] at hother
    exact hother rfl
  positive := by
    intro entry hentry
    rcases List.mem_cons.mp hentry with rfl | hmem
    · exact Nat.one_pos
    · exact bag.positive entry hmem

/-- The bag with one more of a value that is in it; the instance stays. -/
def raise (value : α) : Bag α where
  entries := bag.entries.map (raised value)
  distinct := by
    rw [List.pairwise_map]
    simp only [fst_raised]
    exact bag.distinct
  positive := by
    intro entry hentry
    obtain ⟨former, hformer, rfl⟩ := List.mem_map.mp hentry
    have hpositive := bag.positive former hformer
    rw [raised]
    split
    · exact Nat.succ_pos _
    · exact hpositive

def add (value : α) : Bag α :=
  if habsent : bag.find? value = none then bag.insert value habsent else bag.raise value

/-- The bag with one less of a value; a value that was in it once is dropped. -/
def remove (value : α) : Bag α where
  entries := bag.entries.filterMap (lowered value)
  distinct := by
    rw [List.pairwise_filterMap]
    apply bag.distinct.imp
    intro first second hdistinct left hleft right hright
    rw [fst_of_lowered hleft, fst_of_lowered hright]
    exact hdistinct
  positive := by
    intro entry hentry
    obtain ⟨former, hformer, hlowered⟩ := List.mem_filterMap.mp hentry
    have hpositive := bag.positive former hformer
    rw [lowered] at hlowered
    split at hlowered
    · split at hlowered
      · simp at hlowered
      next hseveral =>
        rw [← Option.some.inj hlowered]
        exact Nat.sub_pos_of_lt (Nat.lt_of_le_of_ne hpositive (Ne.symm hseveral))
    · exact Option.some.inj hlowered ▸ hpositive

/-! ## Counting -/

section Counting

variable {bag} {value : α} {entry : α × Nat}

theorem find?_eq_none_iff :
    bag.find? value = none ↔ ∀ entry ∈ bag.entries, compare value entry.1 ≠ .eq := by
  rw [find?, List.find?_eq_none]
  simp [hasKey, Ordering.isEq_iff_eq_eq]

theorem mem_of_find? (hfound : bag.find? value = some entry) :
    entry ∈ bag.entries ∧ compare value entry.1 = .eq := by
  refine ⟨List.mem_of_find?_eq_some hfound, ?_⟩
  have hkey : hasKey value entry = true := List.find?_some hfound
  exact Ordering.isEq_iff_eq_eq.mp hkey

/-- The entry of a value is the only one that a change of the value concerns. -/
theorem split_of_find? [Std.TransOrd α] (hfound : bag.find? value = some entry) :
    ∃ front back, bag.entries = front ++ entry :: back ∧ hasKey value entry = true ∧
      (∀ other ∈ front, hasKey value other = false) ∧
        ∀ other ∈ back, hasKey value other = false := by
  obtain ⟨hkey, front, back, hentries, hfront⟩ := List.find?_eq_some_iff_append.mp hfound
  have hdistinct := bag.distinct
  rw [hentries, List.pairwise_append, List.pairwise_cons] at hdistinct
  refine ⟨front, back, hentries, hkey, fun other hother => by simpa using hfront other hother, ?_⟩
  intro other hother
  rw [Bool.eq_false_iff]
  intro hequal
  have hsame := Std.OrientedCmp.eq_symm (Ordering.isEq_iff_eq_eq.mp hkey)
  exact hdistinct.2.1.1 other hother
    (Std.TransCmp.eq_trans hsame (Ordering.isEq_iff_eq_eq.mp hequal))

theorem size_add [Std.TransOrd α] (bag : Bag α) (value : α) :
    (bag.add value).size = bag.size + 1 := by
  rw [add]
  split
  next habsent =>
    change ((value, 1) :: bag.entries |>.map Prod.snd).sum = _
    rw [List.map_cons, List.sum_cons, Nat.add_comm, size]
  next hpresent =>
    obtain ⟨entry, hfound⟩ := Option.ne_none_iff_exists'.mp hpresent
    obtain ⟨front, back, hentries, hkey, hfront, hback⟩ := split_of_find? hfound
    have hraised : raised value entry = (entry.1, entry.2 + 1) := if_pos hkey
    change ((bag.entries.map (raised value)).map Prod.snd).sum = _
    rw [size, hentries, List.map_append, List.map_cons, map_raised_eq_self hfront,
      map_raised_eq_self hback, hraised]
    simp only [List.map_append, List.map_cons, List.sum_append, List.sum_cons]
    omega

theorem size_remove [Std.TransOrd α] (hfound : bag.find? value = some entry) :
    (bag.remove value).size + 1 = bag.size := by
  obtain ⟨front, back, hentries, hkey, hfront, hback⟩ := split_of_find? hfound
  have hpositive := bag.positive entry (mem_of_find? hfound).1
  have hlowered : lowered value entry =
      if entry.2 = 1 then none else some (entry.1, entry.2 - 1) := if_pos hkey
  change ((bag.entries.filterMap (lowered value)).map Prod.snd).sum + 1 = _
  rw [size, hentries, List.filterMap_append, List.filterMap_cons, hlowered,
    filterMap_lowered_eq_self hfront, filterMap_lowered_eq_self hback]
  split <;> simp only [List.map_append, List.map_cons, List.sum_append, List.sum_cons] <;> grind

theorem remove_of_none (hmissing : bag.find? value = none) : bag.remove value = bag := by
  have hentries : bag.entries.filterMap (lowered value) = bag.entries := by
    apply filterMap_lowered_eq_self
    intro entry hentry
    exact Ordering.isEq_eq_false.mpr (find?_eq_none_iff.mp hmissing entry hentry)
  cases bag
  simp only [remove, hentries]

end Counting

/-- The answer to a call, if it has one, and the bag after it. -/
def perform : BagCall α → Option Bool × Bag α
  | .add value => (none, bag.add value)
  | .extend values => (none, values.foldl add bag)
  | .remove value => (some (bag.find? value).isSome, bag.remove value)
  | .clear => (none, empty)

end Bag

namespace BinarySearchTree

variable {α : Type u} [Ord α]

def perform (tree : BinarySearchTree α) : BagCall α → Option Bool × BinarySearchTree α
  | .add value => (none, tree.add value)
  | .extend values => (none, tree.extend values)
  | .remove value =>
    let result := tree.remove value
    (some result.1, result.2)
  | .clear => (none, tree.clear)

end BinarySearchTree

end Collections
