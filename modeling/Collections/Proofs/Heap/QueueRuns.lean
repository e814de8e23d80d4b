import Mathlib
import Collections.Element
import Collections.Heap.PriorityQueue
import Collections.Proofs.Direction
import Collections.Proofs.Heap.HeapOrder
import Collections.Proofs.Run

/-!
# Runs of a priority queue

Every call of a priority queue leaves a heap, and no call loses or doubles an element: what
is stored, together with what was taken out, is what the queue was made of together with
what was put in.
-/

namespace Collections

universe u

/-- A call that can change a priority queue. -/
inductive QueueCall (α : Type u) where
  | push (item : α)
  | extend (items : List α)
  | pop
  | clear

/-- What went into a queue and what came out of it since it was last cleared. -/
structure Turnover (α : Type u) where
  entered : Multiset α
  left : Multiset α

namespace Turnover

variable {α : Type u}

/-- A new queue of these elements. -/
def start (items : Multiset α) : Turnover α :=
  ⟨items, 0⟩

/-- A call and the item that it took out, if it did. -/
def record (turnover : Turnover α) : QueueCall α × Option α → Turnover α
  | (.push item, _) => { turnover with entered := item ::ₘ turnover.entered }
  | (.extend items, _) => { turnover with entered := items + turnover.entered }
  | (.pop, some item) => { turnover with left := item ::ₘ turnover.left }
  | (.pop, none) => turnover
  | (.clear, _) => start 0

end Turnover

theorem Direction.weakOrder_precedes {α : Type u} [Ord α] [Std.TransOrd α]
    (direction : Direction) : Heap.WeakOrder (direction.precedes : α → α → Bool) where
  asymm hprecedes := not_precedes_of_admits (admits_of_precedes hprecedes)
  trans hfirst hsecond :=
    not_precedes_of_admits
      (admits_trans (admits_of_not_precedes hfirst) (admits_of_not_precedes hsecond))

namespace PriorityQueue

variable {α : Type u}

/-- The elements as instances, which can be told apart even if they are equal. -/
def instances (queue : PriorityQueue α) : Multiset α :=
  queue.toList

variable [Ord α]

/-- The item that a call takes out, if it does, and the queue after it. -/
def perform (queue : PriorityQueue α) : QueueCall α → Option α × PriorityQueue α
  | .push item => (none, queue.push item)
  | .extend items => (none, queue.extend items)
  | .pop => queue.pop
  | .clear => (none, queue.clear)

/-- A new queue and the elements that it is made of. -/
inductive Initial : PriorityQueue α → Multiset α → Prop
  | empty (direction : Direction) : Initial (empty direction) 0
  | ofArray (direction : Direction) (items : Array α) :
      Initial (ofArray direction items) items.toList

/-- No element precedes the one at its parent. -/
def Ordered (queue : PriorityQueue α) : Prop :=
  Heap.IsHeap queue.direction.precedes queue.heap

variable [Std.TransOrd α] {queue : PriorityQueue α}

/-! ## What one call does -/

theorem Ordered.push (hordered : queue.Ordered) (item : α) :
    (queue.push item).Ordered ∧ (queue.push item).instances = item ::ₘ queue.instances := by
  constructor
  · exact Heap.IsHeap.push queue.direction.weakOrder_precedes hordered item
  · exact Multiset.coe_eq_coe.mpr (Heap.push_perm queue.direction.precedes queue.heap item)

theorem Ordered.extend (items : List α) :
    ∀ {queue : PriorityQueue α}, queue.Ordered →
      (queue.extend items).Ordered ∧
        (queue.extend items).instances = (items : Multiset α) + queue.instances ∧
          (queue.extend items).direction = queue.direction := by
  induction items with
  | nil =>
      intro queue hordered
      exact ⟨hordered, (zero_add _).symm, rfl⟩
  | cons item items ih =>
      intro queue hordered
      obtain ⟨hpushed, hone⟩ := hordered.push item
      obtain ⟨hextended, hinstances, hdirection⟩ := ih hpushed
      refine ⟨hextended, ?_, hdirection⟩
      calc
        ((queue.push item).extend items).instances =
            (items : Multiset α) + (item ::ₘ queue.instances) := by
          rw [hinstances, hone]
        _ = ((item :: items : List α) : Multiset α) + queue.instances := by
          rw [Multiset.add_cons, ← Multiset.cons_coe, Multiset.cons_add]

/-- A queue that holds something serves the element at the root of its heap. -/
theorem Ordered.pop_cases (hordered : queue.Ordered) :
    (queue.heap = #[] ∧ queue.pop = (none, queue)) ∨
      ∃ item rest, queue.pop = (some item, ⟨queue.direction, rest⟩) ∧
        queue.peek? = some item ∧ queue.heap.toList.Perm (item :: rest.toList) ∧
          Heap.IsHeap queue.direction.precedes rest := by
  rw [PriorityQueue.pop]
  cases hpop : Heap.pop? queue.direction.precedes queue.heap with
  | none => exact Or.inl ⟨Heap.pop?_eq_none_iff.mp hpop, rfl⟩
  | some taken =>
      obtain ⟨item, rest⟩ := taken
      obtain ⟨hroot, hperm, hheap⟩ :=
        Heap.IsHeap.pop? queue.direction.weakOrder_precedes hordered hpop
      exact Or.inr ⟨item, rest, rfl, hroot, hperm, hheap⟩

/-- No element precedes the one that is served next. -/
theorem Ordered.peek_first (hordered : queue.Ordered) {item : α} (hpeek : queue.peek? = some item) :
    ∀ other ∈ queue.toList, queue.direction.precedes other item = false :=
  Heap.IsHeap.root_precedes queue.direction.weakOrder_precedes hordered hpeek

omit [Std.TransOrd α] in
theorem ordered_empty (direction : Direction) : (empty direction : PriorityQueue α).Ordered :=
  fun child hchild => absurd hchild (Nat.not_lt_zero child)

/-- A queue is in order, and its elements and what left it are what entered it. -/
structure Balanced (queue : PriorityQueue α) (turnover : Turnover α) : Prop where
  ordered : queue.Ordered
  instances_add : queue.instances + turnover.left = turnover.entered

theorem Initial.balanced {items : Multiset α} (hinitial : Initial queue items) :
    queue.Balanced (.start items) := by
  cases hinitial with
  | empty direction => exact ⟨ordered_empty direction, rfl⟩
  | ofArray direction items =>
      refine ⟨Heap.isHeap_heapify direction.weakOrder_precedes items, ?_⟩
      rw [Turnover.start, add_zero]
      exact Multiset.coe_eq_coe.mpr (Heap.heapify_perm direction.precedes items).toList

/-- A call leaves a queue in order and moves elements only as it says. -/
theorem Balanced.perform {turnover : Turnover α} (hbalanced : queue.Balanced turnover)
    (call : QueueCall α) :
    (queue.perform call).2.Balanced (turnover.record (call, (queue.perform call).1)) ∧
      (queue.perform call).2.direction = queue.direction := by
  have hentered := hbalanced.instances_add
  cases call with
  | push item =>
      obtain ⟨hordered, hinstances⟩ := hbalanced.ordered.push item
      refine ⟨⟨hordered, ?_⟩, rfl⟩
      change (queue.push item).instances + turnover.left = item ::ₘ turnover.entered
      rw [hinstances, Multiset.cons_add, hentered]
  | extend items =>
      obtain ⟨hordered, hinstances, hdirection⟩ := hbalanced.ordered.extend items
      refine ⟨⟨hordered, ?_⟩, hdirection⟩
      change (queue.extend items).instances + turnover.left = items + turnover.entered
      rw [hinstances, add_assoc, hentered]
  | pop =>
      change queue.pop.2.Balanced (turnover.record (.pop, queue.pop.1)) ∧ _
      rcases hbalanced.ordered.pop_cases with ⟨-, hpop⟩ | ⟨item, rest, hpop, -, hperm, hheap⟩
      · rw [PriorityQueue.perform, hpop]
        exact ⟨hbalanced, rfl⟩
      · rw [PriorityQueue.perform, hpop]
        refine ⟨⟨hheap, ?_⟩, rfl⟩
        have hinstances : queue.instances = item ::ₘ (rest.toList : Multiset α) :=
          Multiset.coe_eq_coe.mpr hperm
        change (rest.toList : Multiset α) + item ::ₘ turnover.left = turnover.entered
        rw [← hentered, hinstances, Multiset.add_cons, Multiset.cons_add]
  | clear => exact ⟨⟨ordered_empty queue.direction, rfl⟩, rfl⟩

/-! ## Runs -/

/-- What went into a queue made of given elements and what came out of it in a run. -/
def turnover (queue : PriorityQueue α) (items : Multiset α) (calls : List (QueueCall α)) :
    Turnover α :=
  (calls.zip (Calls.run perform queue calls).1).foldl Turnover.record (.start items)

theorem Balanced.run (calls : List (QueueCall α)) :
    ∀ {queue : PriorityQueue α} {turnover : Turnover α}, queue.Balanced turnover →
      (Calls.run PriorityQueue.perform queue calls).2.Balanced
          ((calls.zip (Calls.run PriorityQueue.perform queue calls).1).foldl
            Turnover.record turnover) ∧
        (Calls.run PriorityQueue.perform queue calls).2.direction = queue.direction := by
  induction calls with
  | nil => exact fun hbalanced => ⟨hbalanced, rfl⟩
  | cons call calls ih =>
      intro queue turnover hbalanced
      obtain ⟨hnext, hdirection⟩ := hbalanced.perform call
      obtain ⟨hfinal, hkept⟩ := ih hnext
      exact ⟨hfinal, hkept.trans hdirection⟩

/-- After any calls a queue, empty or made of given elements in either direction, is in heap
order, and it holds what it was made of and what was put in, without what was taken out. -/
theorem Initial.run_balanced {items : Multiset α} (hinitial : Initial queue items)
    (calls : List (QueueCall α)) :
    (Calls.run perform queue calls).2.Balanced (queue.turnover items calls) ∧
      (Calls.run perform queue calls).2.direction = queue.direction :=
  Balanced.run calls hinitial.balanced

/-- Calls in which equal instances meet at the root and the last element replaces it. -/
def refillingCalls : List (QueueCall Element) :=
  [.push (.tagged 2 4), .pop, .extend [.tagged 9 5, .tagged 1 6], .pop]

theorem run_balanced_refillingCalls :
    ∃ queue : PriorityQueue Element,
      Initial queue (([.tagged 3 1, .tagged 2 2, .tagged 2 3] : List Element) : Multiset Element) ∧
      (Calls.run perform queue refillingCalls).1 =
        [none, some (.tagged 3 1), none, some (.tagged 9 5)] ∧
      (Calls.run perform queue refillingCalls).2.Balanced
        (queue.turnover ([.tagged 3 1, .tagged 2 2, .tagged 2 3] : List Element) refillingCalls) ∧
      (Calls.run perform queue refillingCalls).2.direction = queue.direction := by
  have hinitial := Initial.ofArray .descending
    (#[.tagged 3 1, .tagged 2 2, .tagged 2 3] : Array Element)
  exact ⟨_, hinitial, by cbv, hinitial.run_balanced refillingCalls⟩

end PriorityQueue

end Collections
