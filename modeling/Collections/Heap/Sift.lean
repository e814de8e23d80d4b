/-!
# Sifting in a binary heap

An array is read as a binary tree: the children of position `p` are `2 * p + 1` and
`2 * p + 2`.  It is a heap when no element precedes the one at its parent.  The
two sifts move one misplaced element along a path until this holds again, and
each of their moves swaps a parent with a child.
-/

namespace Collections.Heap

universe u

variable {α : Type u} (precedes : α → α → Bool)

/-- Moves the element at `hole` towards the root while it precedes its parent. -/
def siftUp (heap : Array α) (hole : Nat) : Array α :=
  if hroot : 0 < hole then
    if hhole : hole < heap.size then
      have hparent : (hole - 1) / 2 < heap.size := by omega
      if precedes heap[hole] heap[(hole - 1) / 2] then
        siftUp (heap.swap hole ((hole - 1) / 2)) ((hole - 1) / 2)
      else
        heap
    else
      heap
  else
    heap
termination_by hole

/-- The child that comes first: the right one only if it precedes the left one. -/
def firstChild (heap : Array α) (hole : Nat) (hleft : 2 * hole + 1 < heap.size) :
    Fin heap.size :=
  if hright : 2 * hole + 2 < heap.size then
    if precedes heap[2 * hole + 2] heap[2 * hole + 1] then ⟨2 * hole + 2, hright⟩
    else ⟨2 * hole + 1, hleft⟩
  else
    ⟨2 * hole + 1, hleft⟩

theorem lt_firstChild (heap : Array α) (hole : Nat) (hleft : 2 * hole + 1 < heap.size) :
    hole < firstChild precedes heap hole hleft := by
  unfold firstChild
  split
  · split <;> dsimp only <;> omega
  · dsimp only
    omega

/-- Moves the element at `hole` away from the root while a child precedes it. -/
def siftDown (heap : Array α) (hole : Nat) : Array α :=
  if hleft : 2 * hole + 1 < heap.size then
    have hhole : hole < heap.size := by omega
    have hdown := lt_firstChild precedes heap hole hleft
    if precedes heap[firstChild precedes heap hole hleft] heap[hole] then
      siftDown (heap.swap hole (firstChild precedes heap hole hleft))
        (firstChild precedes heap hole hleft)
    else
      heap
  else
    heap
termination_by heap.size - hole
decreasing_by
  simp only [Array.size_swap]
  omega

/-- Sifts down the positions below `count`, the last one first. -/
def heapifyBelow (heap : Array α) : Nat → Array α
  | 0 => heap
  | position + 1 => heapifyBelow (siftDown precedes heap position) position

/-- Makes a heap of any array by sifting down every position that has a child. -/
def heapify (heap : Array α) : Array α :=
  heapifyBelow precedes heap (heap.size / 2)

def push (heap : Array α) (item : α) : Array α :=
  siftUp precedes (heap.push item) heap.size

/-- Takes out the root: the last element takes its place and is sifted down. -/
def pop? (heap : Array α) : Option (α × Array α) :=
  if hfilled : 0 < heap.size then
    some (heap[0], siftDown precedes (heap.swap 0 (heap.size - 1)).pop 0)
  else
    none

@[simp]
theorem size_siftUp (heap : Array α) (hole : Nat) :
    (siftUp precedes heap hole).size = heap.size := by
  fun_induction siftUp precedes heap hole <;> simp_all

@[simp]
theorem size_siftDown (heap : Array α) (hole : Nat) :
    (siftDown precedes heap hole).size = heap.size := by
  fun_induction siftDown precedes heap hole <;> simp_all

theorem size_of_pop? {heap rest : Array α} {item : α}
    (hpop : pop? precedes heap = some (item, rest)) : rest.size < heap.size := by
  unfold pop? at hpop
  split at hpop
  · simp only [Option.some.injEq, Prod.mk.injEq] at hpop
    rw [← hpop.2]
    simp only [size_siftDown, Array.size_pop, Array.size_swap]
    omega
  · contradiction

/-- The elements in the order in which they are taken out. -/
def drain (heap : Array α) : List α :=
  match _hpop : pop? precedes heap with
  | some (item, rest) => item :: drain rest
  | none => []
termination_by heap.size
decreasing_by exact size_of_pop? precedes _hpop

end Collections.Heap
