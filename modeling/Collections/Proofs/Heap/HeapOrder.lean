import Mathlib
import Collections.Heap.Sift

/-!
# Heap order

An array is in heap order if no element precedes the one at its parent.  A sift repairs an
array in which one place, the hole, is the only one that may be out of order: upwards if the
element at the hole may precede its parent, downwards if its children may precede it.  Each
swap moves the hole, and the elements around the new hole are again in order.
-/

namespace Collections.Heap

universe u

variable {α : Type u} {precedes : α → α → Bool} {heap : Array α} {hole : Nat}

/-- What a sift needs of an order: no two elements precede each other, and an element that
does not precede a second one does not precede what comes before that one. -/
structure WeakOrder (precedes : α → α → Bool) : Prop where
  asymm : ∀ {first second : α}, precedes first second = true → precedes second first = false
  trans : ∀ {first second third : α}, precedes second first = false →
    precedes third second = false → precedes third first = false

theorem WeakOrder.irrefl (horder : WeakOrder precedes) (item : α) :
    precedes item item = false := by
  cases hprecedes : precedes item item with
  | false => rfl
  | true => exact absurd (horder.asymm hprecedes) (by simp [hprecedes])

/-- The element at a position does not precede the one at its parent. -/
def InPlace (precedes : α → α → Bool) (heap : Array α) (child : Nat) : Prop :=
  ∀ hchild : child < heap.size, 0 < child → precedes heap[child] heap[(child - 1) / 2] = false

/-- No element precedes the one at its parent. -/
def IsHeap (precedes : α → α → Bool) (heap : Array α) : Prop :=
  ∀ child, InPlace precedes heap child

/-- The children of a hole may stand below the parent of the hole. -/
def Bridged (precedes : α → α → Bool) (heap : Array α) (hole : Nat) : Prop :=
  ∀ (child : Nat) (hchild : child < heap.size) (_ : 0 < hole) (_ : (child - 1) / 2 = hole),
    precedes heap[child] heap[(hole - 1) / 2] = false

/-! ## Swaps of a child with its parent -/

/-- After a swap of a child with its parent, the places to look at are those of the two, of the
other child of the upper one and of the children of the lower one. -/
theorem inPlace_swap {upper lower child : Nat} (hlower : lower < heap.size)
    (hupper : upper < heap.size) (hdistinct : upper < lower) (hlink : (lower - 1) / 2 = upper)
    (hlowerPlace : child = lower → precedes heap[upper] heap[lower] = false)
    (hupperPlace : child = upper → 0 < upper →
      precedes heap[lower] heap[(upper - 1) / 2] = false)
    (hsibling : ∀ hchild : child < heap.size, child ≠ lower → 0 < child →
      (child - 1) / 2 = upper → precedes heap[child] heap[lower] = false)
    (hbelow : ∀ hchild : child < heap.size, (child - 1) / 2 = lower →
      precedes heap[child] heap[upper] = false)
    (hother : (child - 1) / 2 ≠ upper → (child - 1) / 2 ≠ lower → InPlace precedes heap child) :
    InPlace precedes (heap.swap lower upper) child := by
  intro hbound hpositive
  rw [Array.size_swap] at hbound
  by_cases hisLower : child = lower
  · subst hisLower
    simp only [hlink, Array.getElem_swap_left, Array.getElem_swap_right]
    exact hlowerPlace rfl
  by_cases hisUpper : child = upper
  · subst hisUpper
    rw [Array.getElem_swap_right, Array.getElem_swap_of_ne (by omega) (by omega)]
    exact hupperPlace rfl hpositive
  rw [Array.getElem_swap_of_ne hisLower hisUpper]
  by_cases hunderUpper : (child - 1) / 2 = upper
  · simp only [hunderUpper, Array.getElem_swap_right]
    exact hsibling hbound hisLower hpositive hunderUpper
  by_cases hunderLower : (child - 1) / 2 = lower
  · simp only [hunderLower, Array.getElem_swap_left]
    exact hbelow hbound hunderLower
  · rw [Array.getElem_swap_of_ne hunderLower hunderUpper]
    exact hother hunderUpper hunderLower hbound hpositive

/-! ## Upwards -/

/-- The hole is the only place that may be out of order, and its children fit under its parent. -/
structure Rising (precedes : α → α → Bool) (heap : Array α) (hole : Nat) : Prop where
  others : ∀ child, child ≠ hole → InPlace precedes heap child
  bridged : Bridged precedes heap hole

theorem Rising.swap (horder : WeakOrder precedes) (hrising : Rising precedes heap hole)
    (hroot : 0 < hole) (hhole : hole < heap.size) (hparent : (hole - 1) / 2 < heap.size)
    (hprecedes : precedes heap[hole] heap[(hole - 1) / 2] = true) :
    Rising precedes (heap.swap hole ((hole - 1) / 2) hhole hparent) ((hole - 1) / 2) where
  others := by
    intro child hchild
    have hbehind := horder.asymm hprecedes
    apply inPlace_swap hhole hparent (by omega) rfl (fun _ => hbehind)
    · exact fun heq => absurd heq hchild
    · intro hbound hother hpositive hsibling
      have hplace := hrising.others child hother hbound hpositive
      simp only [hsibling] at hplace
      exact horder.trans hbehind hplace
    · exact fun hbound hbelow => hrising.bridged child hbound hroot hbelow
    · intro hupper _
      exact hrising.others child fun heq => hupper (by rw [heq])
  bridged := by
    intro child hbound hpositive hbelow
    rw [Array.size_swap] at hbound
    have habove := hrising.others ((hole - 1) / 2) (by omega) (by omega) hpositive
    have hgrand : (heap.swap hole ((hole - 1) / 2))[((hole - 1) / 2 - 1) / 2] =
        heap[((hole - 1) / 2 - 1) / 2] := Array.getElem_swap_of_ne (by omega) (by omega)
    rw [hgrand]
    by_cases hself : child = hole
    · subst hself
      rw [Array.getElem_swap_left]
      exact habove
    · rw [Array.getElem_swap_of_ne hself (by omega)]
      have hplace := hrising.others child hself hbound (by omega)
      simp only [hbelow] at hplace
      exact horder.trans habove hplace

/-- An element that may precede its parent is brought up to its place. -/
theorem Rising.isHeap_siftUp (horder : WeakOrder precedes) (hrising : Rising precedes heap hole) :
    IsHeap precedes (siftUp precedes heap hole) := by
  fun_induction siftUp precedes heap hole with
  | case1 heap hole hroot hhole hparent hprecedes ih =>
      exact ih (hrising.swap horder hroot hhole hparent hprecedes)
  | case2 heap hole hroot hhole hparent hprecedes =>
      intro child
      by_cases hself : child = hole
      · rw [hself]
        intro _ _
        exact Bool.eq_false_iff.mpr hprecedes
      · exact hrising.others child hself
  | case3 heap hole hroot hhole =>
      intro child hchild
      exact hrising.others child (by omega) hchild
  | case4 heap hole hroot =>
      intro child hchild hpositive
      exact hrising.others child (by omega) hchild hpositive

/-! ## Downwards -/

/-- A child that comes first is preceded by no child. -/
theorem precedes_firstChild (horder : WeakOrder precedes) (hleft : 2 * hole + 1 < heap.size)
    {child : Nat} (hchild : child < heap.size) (hpositive : 0 < child)
    (hbelow : (child - 1) / 2 = hole) :
    precedes heap[child] heap[firstChild precedes heap hole hleft] = false := by
  have hsides : child = 2 * hole + 1 ∨ child = 2 * hole + 2 := by omega
  unfold firstChild
  split
  next hright =>
    split
    next hprecedes =>
      rcases hsides with rfl | rfl
      · exact horder.asymm hprecedes
      · exact horder.irrefl _
    next hprecedes =>
      rcases hsides with rfl | rfl
      · exact horder.irrefl _
      · exact Bool.eq_false_iff.mpr hprecedes
  next hright =>
    rcases hsides with rfl | rfl
    · exact horder.irrefl _
    · exact absurd hchild hright

variable (precedes) in
theorem parent_firstChild (hleft : 2 * hole + 1 < heap.size) :
    ((firstChild precedes heap hole hleft : Nat) - 1) / 2 = hole := by
  unfold firstChild
  split
  · split <;> dsimp only <;> omega
  · dsimp only
    omega

/-- A set of positions that contains the children of its members. -/
def ClosedBelow (region : Nat → Prop) : Prop :=
  ∀ child, 0 < child → region ((child - 1) / 2) → region child

/-- In a region, only the children of the hole may be out of order, and they fit under its
parent if that belongs to the region. -/
structure Sinking (precedes : α → α → Bool) (region : Nat → Prop) (heap : Array α)
    (hole : Nat) : Prop where
  others : ∀ child, region ((child - 1) / 2) → (child - 1) / 2 ≠ hole →
    InPlace precedes heap child
  bridged : region ((hole - 1) / 2) → Bridged precedes heap hole

theorem Sinking.swap (horder : WeakOrder precedes) {region : Nat → Prop}
    (hclosed : ClosedBelow region) (hregion : region hole)
    (hsinking : Sinking precedes region heap hole) {lower : Nat} (hlower : lower < heap.size)
    (hhole : hole < lower) (hlink : (lower - 1) / 2 = hole)
    (hleast : ∀ child (hchild : child < heap.size), 0 < child → (child - 1) / 2 = hole →
      precedes heap[child] heap[lower] = false)
    (hprecedes : precedes heap[lower] heap[hole] = true) :
    Sinking precedes region (heap.swap hole lower) lower where
  others := by
    intro child hparent hnotBelow
    rw [Array.swap_comm]
    apply inPlace_swap hlower (by omega) hhole hlink (fun _ => horder.asymm hprecedes)
    · intro heq hpositive
      subst heq
      exact hsinking.bridged hparent lower hlower hpositive hlink
    · exact fun hchild _ hpositive hunder => hleast child hchild hpositive hunder
    · exact fun _ heq => absurd heq hnotBelow
    · exact fun hunder _ => hsinking.others child hparent hunder
  bridged := by
    intro _ child hbound hpositive hbelow
    rw [Array.size_swap] at hbound
    have hlowerRegion := hclosed lower (by omega) (hlink ▸ hregion)
    have hplace := hsinking.others child (hbelow ▸ hlowerRegion) (by omega) hbound (by omega)
    simp only [hbelow] at hplace
    simp only [hlink, Array.getElem_swap_left]
    rw [Array.getElem_swap_of_ne (by omega) (by omega)]
    exact hplace

/-- An element that its children may precede is brought down to its place. -/
theorem Sinking.inPlace_siftDown (horder : WeakOrder precedes) {region : Nat → Prop}
    (hclosed : ClosedBelow region) (hregion : region hole)
    (hsinking : Sinking precedes region heap hole) :
    ∀ child, region ((child - 1) / 2) → InPlace precedes (siftDown precedes heap hole) child := by
  fun_induction siftDown precedes heap hole with
  | case1 heap hole hleft hhole hdown hprecedes ih =>
      have hlink := parent_firstChild precedes hleft
      have hnext := hclosed (firstChild precedes heap hole hleft) (by omega) (by rwa [hlink])
      apply ih hnext
      apply hsinking.swap horder hclosed hregion _ hdown hlink _ hprecedes
      exact fun child hchild => precedes_firstChild horder hleft hchild
  | case2 heap hole hleft hhole hdown hprecedes =>
      intro child hparent
      by_cases hunder : (child - 1) / 2 = hole
      · intro hchild hpositive
        have hfirst := precedes_firstChild horder hleft hchild hpositive hunder
        simp only [hunder]
        exact horder.trans (Bool.eq_false_iff.mpr hprecedes) hfirst
      · exact hsinking.others child hparent hunder
  | case3 heap hole hleft =>
      intro child hparent hchild hpositive
      exact hsinking.others child hparent (by omega) hchild hpositive

/-- No child of a position from a first one on precedes its parent. -/
def InOrderFrom (precedes : α → α → Bool) (heap : Array α) (first : Nat) : Prop :=
  ∀ child, first ≤ (child - 1) / 2 → InPlace precedes heap child

theorem InOrderFrom.siftDown (horder : WeakOrder precedes) {position : Nat}
    (hbelow : InOrderFrom precedes heap (position + 1)) :
    InOrderFrom precedes (siftDown precedes heap position) position := by
  have hclosed : ClosedBelow (position ≤ ·) := by
    intro child _ hparent
    omega
  have hsinking : Sinking precedes (position ≤ ·) heap position := {
    others := fun child hparent hnotBelow => hbelow child (by omega)
    bridged := fun hparent child _ hpositive _ => by omega }
  exact hsinking.inPlace_siftDown horder hclosed (Nat.le_refl position)

/-! ## Whole heaps -/

section Operations

variable (precedes) (heap)

theorem siftUp_perm (hole : Nat) : (siftUp precedes heap hole).Perm heap := by
  fun_induction siftUp precedes heap hole with
  | case1 heap hole hroot hhole hparent hprecedes ih =>
      exact ih.trans (Array.swap_perm hhole hparent)
  | case2 => exact Array.Perm.refl _
  | case3 => exact Array.Perm.refl _
  | case4 => exact Array.Perm.refl _

theorem siftDown_perm (hole : Nat) : (siftDown precedes heap hole).Perm heap := by
  fun_induction siftDown precedes heap hole with
  | case1 heap hole hleft hhole hdown hprecedes ih => exact ih.trans (Array.swap_perm hhole _)
  | case2 => exact Array.Perm.refl _
  | case3 => exact Array.Perm.refl _

theorem heapify_perm : (heapify precedes heap).Perm heap := by
  have hbelow : ∀ count (heap : Array α), (heapifyBelow precedes heap count).Perm heap := by
    intro count
    induction count with
    | zero => exact fun heap => Array.Perm.refl heap
    | succ position ih => exact fun heap => (ih _).trans (siftDown_perm precedes heap position)
  exact hbelow _ heap

theorem push_perm (item : α) : (push precedes heap item).toList.Perm (item :: heap.toList) := by
  apply (siftUp_perm precedes (heap.push item) heap.size).toList.trans
  rw [Array.toList_push]
  exact List.perm_append_singleton item heap.toList

end Operations

theorem IsHeap.push (horder : WeakOrder precedes) (hheap : IsHeap precedes heap) (item : α) :
    IsHeap precedes (push precedes heap item) := by
  have hrising : Rising precedes (heap.push item) heap.size := {
    others := by
      intro child hother hchild hpositive
      have hold : child < heap.size := by
        rw [Array.size_push] at hchild
        omega
      rw [Array.getElem_push_lt hold, Array.getElem_push_lt (by omega)]
      exact hheap child hold hpositive
    bridged := by
      intro child hchild _ hbelow
      rw [Array.size_push] at hchild
      omega }
  exact hrising.isHeap_siftUp horder

/-- Sifting down from the last position that has a child to the first one makes a heap of any
array. -/
theorem isHeap_heapify (horder : WeakOrder precedes) (heap : Array α) :
    IsHeap precedes (heapify precedes heap) := by
  have hbelow : ∀ count (heap : Array α), InOrderFrom precedes heap count →
      IsHeap precedes (heapifyBelow precedes heap count) := by
    intro count
    induction count with
    | zero => exact fun heap hordered child => hordered child (Nat.zero_le _)
    | succ position ih => exact fun heap hordered => ih _ (hordered.siftDown horder)
  apply hbelow
  intro child hparent hchild hpositive
  omega

/-- No element of a heap precedes the one at the root. -/
theorem IsHeap.root_first (horder : WeakOrder precedes) (hheap : IsHeap precedes heap)
    (position : Nat) (hposition : position < heap.size) :
    precedes heap[position] heap[0] = false := by
  induction position using Nat.strong_induction_on with
  | h position ih =>
      rcases Nat.eq_zero_or_pos position with rfl | hpositive
      · exact horder.irrefl _
      · have hparent := ih ((position - 1) / 2) (by omega) (by omega)
        exact horder.trans hparent (hheap position hposition hpositive)

theorem IsHeap.root_precedes (horder : WeakOrder precedes) (hheap : IsHeap precedes heap)
    {item : α} (hroot : heap[0]? = some item) :
    ∀ other ∈ heap.toList, precedes other item = false := by
  intro other hother
  obtain ⟨position, hposition, rfl⟩ := Array.mem_iff_getElem.mp (Array.mem_toList_iff.mp hother)
  obtain ⟨_, rfl⟩ := Array.getElem?_eq_some_iff.mp hroot
  exact hheap.root_first horder position hposition

theorem pop?_eq_none_iff : pop? precedes heap = none ↔ heap = #[] := by
  rw [pop?, dite_eq_right_iff]
  simp [Array.size_eq_zero_iff]

/-- An array without its first element is permuted like one whose last element took its place. -/
theorem perm_swap_pop (hfilled : 0 < heap.size) (hlast : heap.size - 1 < heap.size) :
    heap.toList.Perm (heap[0] :: (heap.swap 0 (heap.size - 1) hfilled hlast).pop.toList) := by
  have hswapped : (heap.swap 0 (heap.size - 1)).pop.push heap[0] =
      heap.swap 0 (heap.size - 1) := by
    ext index hleft hright
    · rw [Array.size_push, Array.size_pop, Array.size_swap]
      omega
    · rw [Array.getElem_push]
      split
      · rw [Array.getElem_pop]
      next hend =>
        have hindex : index = heap.size - 1 := by
          rw [Array.size_swap] at hright
          rw [Array.size_pop, Array.size_swap] at hend
          omega
        subst hindex
        rw [Array.getElem_swap_right]
  calc
    heap.toList.Perm (heap.swap 0 (heap.size - 1)).toList :=
      (Array.swap_perm hfilled hlast).toList.symm
    List.Perm _ ((heap.swap 0 (heap.size - 1)).pop.toList ++ [heap[0]]) := by
      rw [← Array.toList_push, hswapped]
    List.Perm _ (heap[0] :: (heap.swap 0 (heap.size - 1)).pop.toList) :=
      List.perm_append_singleton _ _

/-- What is taken out is the root, and the rest is a heap of the other elements. -/
theorem IsHeap.pop? (horder : WeakOrder precedes) (hheap : IsHeap precedes heap) {item : α}
    {rest : Array α} (hpop : pop? precedes heap = some (item, rest)) :
    heap[0]? = some item ∧ heap.toList.Perm (item :: rest.toList) ∧ IsHeap precedes rest := by
  rw [Heap.pop?, Option.dite_none_right_eq_some] at hpop
  obtain ⟨hfilled, hpop⟩ := hpop
  obtain ⟨rfl, rfl⟩ := Prod.mk.inj (Option.some.inj hpop)
  refine ⟨Array.getElem?_eq_getElem hfilled, ?_, ?_⟩
  · have hlast : heap.size - 1 < heap.size := Nat.sub_one_lt (Nat.ne_of_gt hfilled)
    exact (perm_swap_pop hfilled hlast).trans ((siftDown_perm precedes _ 0).toList.symm.cons _)
  · have hsinking : Sinking precedes (fun _ => True) (heap.swap 0 (heap.size - 1)).pop 0 := {
      others := by
        intro child _ hnotRoot hchild hpositive
        rw [Array.size_pop, Array.size_swap] at hchild
        rw [Array.getElem_pop, Array.getElem_pop, Array.getElem_swap_of_ne (by omega) (by omega),
          Array.getElem_swap_of_ne (by omega) (by omega)]
        exact hheap child (by omega) hpositive
      bridged := fun _ child _ hpositive _ => absurd hpositive (Nat.lt_irrefl 0) }
    intro child
    exact hsinking.inPlace_siftDown horder (fun _ _ _ => trivial) trivial child trivial

end Collections.Heap
