import Mathlib
import Collections.Proofs.Cursor
import Collections.Proofs.Heap.QueueRuns
import Collections.Proofs.Sorted.Alike

/-!
# The order of service

A queue serves its elements in the order of its direction: each pop takes out an element that
no stored one precedes, and after as many pops as there are elements nothing is left.  Which
element is served in which turn depends on what entered the queue and did not leave it, up to
equal elements, and not on the calls that did this.
-/

namespace Collections

universe u

namespace Heap

variable {α : Type u} {precedes : α → α → Bool} {heap : Array α}

theorem drain_of_none (hpop : pop? precedes heap = none) : drain precedes heap = [] := by
  rw [drain]
  split
  next hother =>
    rw [hpop] at hother
    contradiction
  next => rfl

theorem drain_of_some {item : α} {rest : Array α} (hpop : pop? precedes heap = some (item, rest)) :
    drain precedes heap = item :: drain precedes rest := by
  rw [drain]
  split
  next hother =>
    obtain ⟨rfl, rfl⟩ := Prod.mk.inj (Option.some.inj (hpop.symm.trans hother))
    rfl
  next hother =>
    rw [hpop] at hother
    contradiction

/-- Taking out one root after the other puts the elements of a heap in order. -/
theorem IsHeap.drain (horder : WeakOrder precedes) (hheap : IsHeap precedes heap) :
    (drain precedes heap).Perm heap.toList ∧
      (drain precedes heap).Pairwise fun earlier later => precedes later earlier = false := by
  fun_induction Heap.drain precedes heap with
  | case1 heap item rest hpop ih =>
      obtain ⟨hroot, hperm, hrest⟩ := hheap.pop? horder hpop
      obtain ⟨hsame, hsorted⟩ := ih hrest
      refine ⟨(hsame.cons item).trans hperm.symm, List.pairwise_cons.mpr ⟨?_, hsorted⟩⟩
      intro later hlater
      apply hheap.root_precedes horder hroot
      exact hperm.mem_iff.mpr (List.mem_cons_of_mem item (hsame.mem_iff.mp hlater))
  | case2 heap hpop =>
      rw [pop?_eq_none_iff.mp hpop]
      exact ⟨.nil, .nil⟩

end Heap

/-- These elements are what entered a queue without what left it. -/
def Turnover.Leaves {α : Type u} (turnover : Turnover α) (kept : Multiset α) : Prop :=
  kept + turnover.left = turnover.entered

namespace PriorityQueue

variable {α : Type u} [Ord α]

/-- A queue walks over its elements in the order in which it serves them. -/
instance : Cursor (PriorityQueue α) α where
  remaining := length
  next := pop

/-- The item that a pop takes out after a number of earlier pops. -/
def popAt (queue : PriorityQueue α) (turn : Nat) : Option α :=
  (Cursor.after queue turn).pop.1

/-- Two queues serve equal elements in every turn. -/
def ServesLike (queue other : PriorityQueue α) : Prop :=
  ∀ turn, Option.Rel (fun left right => compare left right = .eq)
    (queue.popAt turn) (other.popAt turn)

/-- Pops that are made for as long as they take something out, and the items taken out. -/
inductive Emptied : PriorityQueue α → List α → Prop
  | finished {queue : PriorityQueue α} (hnone : queue.pop.1 = none) : Emptied queue []
  | popped {queue : PriorityQueue α} {item : α} {items : List α}
      (hitem : queue.pop.1 = some item) (hrest : Emptied queue.pop.2 items) :
      Emptied queue (item :: items)

/-- A queue serves one element after the other, each one before those that it precedes. -/
structure ServesInOrder (queue : PriorityQueue α) : Prop where
  peek_eq_none_iff : queue.peek? = none ↔ queue.instances = 0
  pop_eq_peek : queue.pop.1 = queue.peek?
  first : ∀ item, queue.peek? = some item →
    ∀ other ∈ queue.instances, queue.direction.precedes other item = false
  /-- A pop removes the instance that it answers and no other. -/
  taken : ∀ item, queue.pop.1 = some item → queue.instances = item ::ₘ queue.pop.2.instances
  untouched : queue.pop.1 = none → queue.pop.2 = queue
  /-- Popping until nothing is left comes to an end, with the sorted elements. -/
  emptied : queue.Emptied queue.toSortedList
  sorted_perm : queue.toSortedList.Perm queue.toList
  sorted : queue.toSortedList.Pairwise fun earlier later =>
    queue.direction.precedes later earlier = false
  /-- Any number of pops yields the sorted elements and then nothing, and each of them tells how
  many elements are left. -/
  pops_eq : ∀ count, Cursor.calls count queue = Cursor.visits queue.toSortedList count
  left_eq : ∀ count, (Cursor.after queue count).instances = queue.toSortedList.drop count

variable [Std.TransOrd α] {queue : PriorityQueue α}

/-! ## One pop -/

theorem Ordered.sorted (hordered : queue.Ordered) :
    queue.toSortedList.Perm queue.toList ∧
      queue.toSortedList.Pairwise fun earlier later =>
        queue.direction.precedes later earlier = false :=
  Heap.IsHeap.drain queue.direction.weakOrder_precedes hordered

theorem Ordered.pop (hordered : queue.Ordered) : queue.pop.2.Ordered := by
  rcases hordered.pop_cases with ⟨-, hpop⟩ | ⟨item, rest, hpop, -, -, hheap⟩
  · rw [hpop]
    exact hordered
  · rw [hpop]
    exact hheap

omit [Std.TransOrd α] in
theorem pop_of_nil (hsorted : queue.toSortedList = []) : queue.pop = (none, queue) := by
  rw [PriorityQueue.pop]
  rw [toSortedList] at hsorted
  cases hpop : Heap.pop? queue.direction.precedes queue.heap with
  | none => rfl
  | some taken =>
      rw [Heap.drain_of_some hpop] at hsorted
      contradiction

omit [Std.TransOrd α] in
/-- A pop serves the first one of the sorted elements and keeps the others. -/
theorem pop_of_cons {item : α} {items : List α} (hsorted : queue.toSortedList = item :: items) :
    ∃ rest, queue.pop = (some item, rest) ∧ rest.toSortedList = items := by
  rw [PriorityQueue.pop]
  rw [toSortedList] at hsorted
  cases hpop : Heap.pop? queue.direction.precedes queue.heap with
  | none =>
      rw [Heap.drain_of_none hpop] at hsorted
      contradiction
  | some taken =>
      rw [Heap.drain_of_some hpop] at hsorted
      obtain ⟨rfl, rfl⟩ := List.cons.inj hsorted
      exact ⟨_, rfl, rfl⟩

/-! ## Many pops -/

/-- A queue has these elements to serve, in this order. -/
def Serves (queue : PriorityQueue α) (items : List α) : Prop :=
  queue.Ordered ∧ queue.toSortedList = items

theorem yields_serves : Cursor.Yields (Serves : PriorityQueue α → List α → Prop) where
  next_nil := by
    rintro queue ⟨hordered, hsorted⟩
    change queue.pop.1 = none ∧ queue.pop.2.Serves []
    rw [pop_of_nil hsorted]
    exact ⟨rfl, hordered, hsorted⟩
  next_cons := by
    rintro queue item items ⟨hordered, hsorted⟩
    obtain ⟨rest, hpop, hrest⟩ := pop_of_cons hsorted
    have hkept := hordered.pop
    change queue.pop.1 = some item ∧ queue.pop.2.Serves items
    rw [hpop] at hkept ⊢
    exact ⟨rfl, hkept, hrest⟩
  remaining_eq := by
    rintro queue items ⟨hordered, rfl⟩
    exact hordered.sorted.1.length_eq.symm

theorem Ordered.popAt_eq (hordered : queue.Ordered) (turn : Nat) :
    queue.popAt turn = queue.toSortedList[turn]? :=
  (yields_serves.remaining_after ⟨hordered, rfl⟩ turn).2

omit [Std.TransOrd α] in
theorem emptied_of_toSortedList (items : List α) :
    ∀ {queue : PriorityQueue α}, queue.toSortedList = items → queue.Emptied items := by
  induction items with
  | nil =>
      intro queue hsorted
      exact .finished (by rw [pop_of_nil hsorted])
  | cons item items ih =>
      intro queue hsorted
      obtain ⟨rest, hpop, hrest⟩ := pop_of_cons hsorted
      refine .popped (by rw [hpop]) (ih ?_)
      rw [hpop]
      exact hrest

theorem Ordered.serves_in_order (hordered : queue.Ordered) : queue.ServesInOrder := by
  have hserves : queue.Serves queue.toSortedList := ⟨hordered, rfl⟩
  have hpop := hordered.pop_cases
  exact {
    peek_eq_none_iff := by
      rw [peek?, Array.getElem?_eq_none_iff, Nat.le_zero, instances, toList,
        Multiset.coe_eq_zero_iff_isEmpty]
      simp
    pop_eq_peek := by
      rcases hpop with ⟨hempty, hpop⟩ | ⟨item, rest, hpop, hpeek, -, -⟩
      · rw [hpop, peek?, hempty]
        rfl
      · rw [hpop, hpeek]
    first := fun item hpeek => hordered.peek_first hpeek
    taken := by
      intro item hitem
      rcases hpop with ⟨-, hpop⟩ | ⟨served, rest, hpop, -, hperm, -⟩
      · rw [hpop] at hitem
        contradiction
      · rw [hpop] at hitem ⊢
        obtain rfl : served = item := Option.some.inj hitem
        exact Multiset.coe_eq_coe.mpr hperm
    untouched := by
      intro hnone
      rcases hpop with ⟨-, hpop⟩ | ⟨served, rest, hpop, -, -, -⟩
      · rw [hpop]
      · rw [hpop] at hnone
        contradiction
    emptied := emptied_of_toSortedList _ rfl
    sorted_perm := hordered.sorted.1
    sorted := hordered.sorted.2
    pops_eq := fun count => yields_serves.calls_eq_visits count hserves
    left_eq := by
      intro count
      obtain ⟨hrest, hsorted⟩ := yields_serves.shows_after hserves count
      rw [← hsorted]
      exact Multiset.coe_eq_coe.mpr hrest.sorted.1.symm }

omit [Std.TransOrd α] in
/-- A queue holds what entered it without what left it. -/
theorem Balanced.instances_eq {turnover : Turnover α} (hbalanced : queue.Balanced turnover)
    {kept : Multiset α} (hkept : turnover.Leaves kept) : queue.instances = kept :=
  add_right_cancel (hbalanced.instances_add.trans hkept.symm)

/-- Queues of one direction that hold equal elements have them in the same order to serve. -/
theorem Ordered.alike {other : PriorityQueue α} (hordered : queue.Ordered)
    (hother : other.Ordered) (hdirection : other.direction = queue.direction)
    (hmatched : Multiset.Rel (fun left right => compare left right = .eq)
      queue.instances other.instances) :
    Sorted.Alike queue.toSortedList other.toSortedList := by
  obtain ⟨hperm, hsorted⟩ := hordered.sorted
  obtain ⟨hotherPerm, hotherSorted⟩ := hother.sorted
  rw [hdirection] at hotherSorted
  apply Sorted.alike_of_countEqual
    (hsorted.imp Direction.admits_of_not_precedes)
    (hotherSorted.imp Direction.admits_of_not_precedes)
  intro item
  calc
    Sorted.countEqual item queue.toSortedList = Sorted.countEqual item queue.toList :=
      hperm.countP_eq _
    _ = Sorted.countEqual item other.toList := Sorted.countEqual_of_rel hmatched item
    _ = Sorted.countEqual item other.toSortedList := (hotherPerm.countP_eq _).symm

/-- After any calls a queue serves what entered it and did not leave it, in the order of its
direction, and any other queue of that direction in which equal elements remain, whatever it was
made of and whatever was called, serves equal ones in every turn. -/
theorem Initial.run_serves_regardless {items : Multiset α} (hinitial : Initial queue items)
    (calls : List (QueueCall α)) :
    (Calls.run perform queue calls).2.ServesInOrder ∧
      (queue.turnover items calls).Leaves (Calls.run perform queue calls).2.toSortedList ∧
        ∀ {other : PriorityQueue α} {otherItems : Multiset α}, Initial other otherItems →
          other.direction = queue.direction → ∀ otherCalls kept otherKept,
            (queue.turnover items calls).Leaves kept →
              (other.turnover otherItems otherCalls).Leaves otherKept →
                Multiset.Rel (fun left right => compare left right = .eq) kept otherKept →
                  (Calls.run perform queue calls).2.ServesLike
                    (Calls.run perform other otherCalls).2 := by
  obtain ⟨hbalanced, hdirection⟩ := hinitial.run_balanced calls
  refine ⟨hbalanced.ordered.serves_in_order, ?_, ?_⟩
  · have hserved : (↑(Calls.run perform queue calls).2.toSortedList : Multiset α) =
        (Calls.run perform queue calls).2.instances :=
      Multiset.coe_eq_coe.mpr hbalanced.ordered.sorted.1
    rw [hserved]
    exact hbalanced.instances_add
  · intro other otherItems hother hsame otherCalls kept otherKept hkept hotherKept hmatched turn
    obtain ⟨hotherBalanced, hotherDirection⟩ := hother.run_balanced otherCalls
    have hdirections : (Calls.run perform other otherCalls).2.direction =
        (Calls.run perform queue calls).2.direction :=
      hotherDirection.trans (hsame.trans hdirection.symm)
    rw [← hbalanced.instances_eq hkept, ← hotherBalanced.instances_eq hotherKept] at hmatched
    rw [hbalanced.ordered.popAt_eq, hotherBalanced.ordered.popAt_eq]
    exact (hbalanced.ordered.alike hotherBalanced.ordered hdirections hmatched).getElem? turn

/-- Calls that leave elements of which two pairs are equal. -/
def mixedCalls : List (QueueCall Element) :=
  [.push (.tagged 5 1), .extend [.tagged 2 2, .tagged 9 3, .tagged 2 4], .pop,
    .push (.tagged 7 5), .push (.tagged 5 6)]

/-- The elements of the second queue, of which the first one is taken out again. -/
def mixedItems : Array Element :=
  #[.tagged 5 7, .tagged 2 8, .tagged 8 3, .tagged 5 0, .tagged 7 1]

theorem run_serves_regardless_mixedCalls :
    ∃ queue other : PriorityQueue Element, ∃ kept otherKept : List Element,
      Initial queue 0 ∧ Initial other mixedItems.toList ∧ other.direction = queue.direction ∧
      (queue.turnover 0 mixedCalls).Leaves kept ∧
      (other.turnover mixedItems.toList [.pop, .push (.tagged 2 9)]).Leaves otherKept ∧
      Multiset.Rel (fun left right => compare left right = .eq)
        (kept : Multiset Element) otherKept ∧
      (Calls.run perform queue mixedCalls).2.ServesInOrder ∧
      (Calls.run perform queue mixedCalls).2.ServesLike
        (Calls.run perform other [.pop, .push (.tagged 2 9)]).2 := by
  let kept : List Element := [.tagged 5 6, .tagged 7 5, .tagged 2 2, .tagged 2 4, .tagged 5 1]
  let otherKept : List Element :=
    [.tagged 5 7, .tagged 7 1, .tagged 2 8, .tagged 2 9, .tagged 5 0]
  have hinitial : Initial (empty .descending : PriorityQueue Element) 0 := .empty .descending
  have hother : Initial (ofArray .descending mixedItems) mixedItems.toList :=
    .ofArray .descending mixedItems
  have hkept : ((empty .descending : PriorityQueue Element).turnover 0 mixedCalls).Leaves kept := by
    have hanswers : (Calls.run perform (empty .descending : PriorityQueue Element) mixedCalls).1 =
        [none, none, some (.tagged 9 3), none, none] := by cbv
    rw [turnover, hanswers, Turnover.Leaves]
    decide
  have hotherKept : ((ofArray .descending mixedItems).turnover mixedItems.toList
      [.pop, .push (.tagged 2 9)]).Leaves otherKept := by
    have hanswers : (Calls.run perform (ofArray .descending mixedItems)
        [.pop, .push (.tagged 2 9)]).1 = [some (.tagged 8 3), none] := by cbv
    rw [turnover, hanswers, Turnover.Leaves]
    decide
  have hmatched : Multiset.Rel (fun left right => compare left right = .eq)
      (kept : Multiset Element) otherKept := by
    simp only [kept, otherKept, ← Multiset.cons_coe]
    refine .cons ?_ (.cons ?_ (.cons ?_ (.cons ?_ (.cons ?_ .zero)))) <;> rfl
  obtain ⟨hserves, -, hregardless⟩ := hinitial.run_serves_regardless mixedCalls
  exact ⟨_, _, kept, otherKept, hinitial, hother, rfl, hkept, hotherKept, hmatched, hserves,
    hregardless hother rfl _ _ _ hkept hotherKept hmatched⟩

end PriorityQueue

end Collections
