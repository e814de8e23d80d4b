import Mathlib
import Collections.Heap.PriorityStack
import Collections.Proofs.Heap.QueueRuns

/-!
# Runs of a priority stack

A stack is described by its history: the pairs that were pushed and not popped, in the order
of the pushes.  What is served next is the newest pair among those of the highest priority.
The entries in the heap carry the numbers of their pushes, so that the heap, in whatever
layout, serves the same pair; the numbers start again whenever the stack becomes empty, and
fit into a word as long as there are fewer pushes than words in between.
-/

namespace Collections

universe u v

/-- A call that can change a priority stack. -/
inductive StackCall (α : Type u) (π : Type v) where
  | push (value : α) (priority : π)
  | pop
  | popWithPriority
  | clear

/-- What a priority stack answers to a call. -/
inductive StackAnswer (α : Type u) (π : Type v) where
  | done
  | popped (value : Option α)
  | poppedWithPriority (pair : Option (α × π))

/-- What a stack was used for since it was last empty. -/
structure PushHistory (α : Type u) (π : Type v) where
  /-- The pairs that are on the stack, the one pushed last first. -/
  live : List (α × π)
  pushes : Nat

namespace PushHistory

variable {α : Type u} {π : Type v}

def empty : PushHistory α π :=
  ⟨[], 0⟩

def push (history : PushHistory α π) (value : α) (priority : π) : PushHistory α π :=
  ⟨(value, priority) :: history.live, history.pushes + 1⟩

variable [Ord π]

/-- Whether no pair on the stack has a higher priority than this one. -/
def isTop (history : PushHistory α π) (pair : α × π) : Bool :=
  history.live.all fun other => (compare other.2 pair.2).isLE

/-- The pair pushed last among those of the highest priority. -/
def top? (history : PushHistory α π) : Option (α × π) :=
  history.live.find? history.isTop

def pop (history : PushHistory α π) : PushHistory α π :=
  let rest := history.live.eraseP history.isTop
  ⟨rest, if rest.isEmpty then 0 else history.pushes⟩

def perform (history : PushHistory α π) : StackCall α π → StackAnswer α π × PushHistory α π
  | .push value priority => (.done, history.push value priority)
  | .pop => (.popped (history.top?.map Prod.fst), history.pop)
  | .popWithPriority => (.poppedWithPriority history.top?, history.pop)
  | .clear => (.done, empty)

/-- Fewer pushes than there are words were made since the stack was last empty, also with
this call. -/
def HasRoom (history : PushHistory α π) : StackCall α π → Prop
  | .push _ _ => history.pushes + 1 < 2 ^ 64
  | .pop | .popWithPriority | .clear => True

instance (history : PushHistory α π) (call : StackCall α π) : Decidable (history.HasRoom call) :=
  match call with
  | .push _ _ => inferInstanceAs (Decidable (history.pushes + 1 < 2 ^ 64))
  | .pop | .popWithPriority | .clear => isTrue trivial

theorem pop_of_split {history : PushHistory α π} {front back : List (α × π)} {pair : α × π}
    (hlive : history.live = front ++ pair :: back) (htop : history.isTop pair = true)
    (hnewer : ∀ newer ∈ front, ¬ history.isTop newer = true) :
    history.top? = some pair ∧ history.pop.live = front ++ back := by
  constructor
  · rw [top?, List.find?_eq_some_iff_append]
    refine ⟨htop, front, back, hlive, ?_⟩
    exact fun newer hmem => by simpa using hnewer newer hmem
  · rw [pop]
    dsimp only
    rw [hlive, List.eraseP_append_right _ hnewer, List.eraseP_cons_of_pos htop]

theorem pop_of_nil {history : PushHistory α π} (hlive : history.live = [])
    (hidle : history.pushes = 0) : history.top? = none ∧ history.pop = history := by
  obtain ⟨live, pushes⟩ := history
  obtain rfl := hlive
  obtain rfl := hidle
  exact ⟨rfl, rfl⟩

end PushHistory

namespace PriorityStack

variable {α : Type u} {π : Type v} [Ord π]

instance [Std.TransOrd π] : Std.TransOrd (Entry α π) :=
  inferInstanceAs (Std.TransCmp (compareLex
    (compareOn fun entry : Entry α π => entry.priority) (compareOn Entry.sequence)))

def perform (stack : PriorityStack α π) : StackCall α π → StackAnswer α π × PriorityStack α π
  | .push value priority => (.done, stack.push value priority)
  | .pop =>
    let result := stack.pop
    (.popped result.1, result.2)
  | .popWithPriority =>
    let result := stack.popWithPriority
    (.poppedWithPriority result.1, result.2)
  | .clear => (.done, stack.clear)

def Entry.pair (entry : Entry α π) : α × π :=
  (entry.value, entry.priority)

/-- The entries of a stack, the newest first, are those of a history in the order of their
numbers. -/
structure Numbers (stack : PriorityStack α π) (entries : List (Entry α π))
    (history : PushHistory α π) : Prop where
  direction_eq : stack.queue.direction = .descending
  ordered : stack.queue.Ordered
  heap_perm : stack.queue.heap.toList.Perm entries
  pairs_eq : entries.map Entry.pair = history.live
  newer : entries.Pairwise fun first second => second.sequence < first.sequence
  below : ∀ entry ∈ entries, entry.sequence < stack.nextSequence
  next_eq : stack.nextSequence.toNat = history.pushes
  idle : history.live = [] → history.pushes = 0

variable [Std.TransOrd π] {stack : PriorityStack α π} {entries : List (Entry α π)}
variable {history : PushHistory α π}

omit [Std.TransOrd π] in
theorem numbers_clear (stack : PriorityStack α π)
    (hdirection : stack.queue.direction = .descending) :
    stack.clear.Numbers [] .empty where
  direction_eq := hdirection
  ordered := PriorityQueue.ordered_empty _
  heap_perm := List.Perm.nil
  pairs_eq := rfl
  newer := .nil
  below _ hentry := absurd hentry List.not_mem_nil
  next_eq := rfl
  idle _ := rfl

theorem Numbers.push (hnumbers : stack.Numbers entries history) (value : α) (priority : π)
    (hroom : history.pushes + 1 < 2 ^ 64) :
    (stack.push value priority).Numbers (⟨priority, stack.nextSequence, value⟩ :: entries)
      (history.push value priority) := by
  have hnext : (stack.nextSequence + 1).toNat = stack.nextSequence.toNat + 1 := by
    rw [UInt64.toNat_add, hnumbers.next_eq]
    exact Nat.mod_eq_of_lt hroom
  obtain ⟨hordered, hinstances⟩ :=
    hnumbers.ordered.push ⟨priority, stack.nextSequence, value⟩
  exact {
    direction_eq := hnumbers.direction_eq
    ordered := hordered
    heap_perm := (Multiset.coe_eq_coe.mp hinstances).trans (hnumbers.heap_perm.cons _)
    pairs_eq := congrArg ((value, priority) :: ·) hnumbers.pairs_eq
    newer := List.pairwise_cons.mpr ⟨hnumbers.below, hnumbers.newer⟩
    below := by
      intro entry hentry
      rw [UInt64.lt_iff_toNat_lt]
      change entry.sequence.toNat < (stack.nextSequence + 1).toNat
      rw [hnext]
      rcases List.mem_cons.mp hentry with rfl | hmem
      · exact Nat.lt_succ_self _
      · exact Nat.lt_succ_of_lt (UInt64.lt_iff_toNat_lt.mp (hnumbers.below entry hmem))
    next_eq := by
      change (stack.nextSequence + 1).toNat = history.pushes + 1
      rw [hnext, hnumbers.next_eq]
    idle := fun hlive => absurd hlive (List.cons_ne_nil _ _) }

/-- An entry that no other one precedes in the heap is the newest one of the highest priority. -/
theorem Numbers.top_of_first (hnumbers : stack.Numbers entries history)
    {front back : List (Entry α π)} {first : Entry α π}
    (hentries : entries = front ++ first :: back)
    (hfirst : ∀ other ∈ entries, stack.queue.direction.precedes other first = false) :
    history.isTop first.pair = true ∧
      ∀ newer ∈ front.map Entry.pair, ¬ history.isTop newer = true := by
  have hrank : ∀ other ∈ entries, (compare other.priority first.priority).isLE = true ∧
      (compare other.priority first.priority = .lt ∨
        (compare other.sequence first.sequence).isLE = true) := by
    intro other hother
    have hadmits := Direction.admits_of_not_precedes (hfirst other hother)
    rw [hnumbers.direction_eq, Direction.admits_iff_isLE] at hadmits
    exact Ordering.isLE_then_iff_and.mp hadmits
  constructor
  · rw [PushHistory.isTop, ← hnumbers.pairs_eq, List.all_map, List.all_eq_true]
    exact fun other hother => (hrank other hother).1
  · rw [List.forall_mem_map]
    intro newer hmem htop
    rw [PushHistory.isTop, ← hnumbers.pairs_eq, List.all_map, List.all_eq_true] at htop
    have hnewer : newer ∈ entries := by
      rw [hentries]
      exact List.mem_append_left _ hmem
    have hnotLess := htop first (by simp [hentries])
    have hnumbered := hnumbers.newer
    rw [hentries, List.pairwise_append] at hnumbered
    have hlater := Std.compare_eq_gt.mpr (hnumbered.2.2 newer hmem first List.mem_cons_self)
    rcases (hrank newer hnewer).2 with hless | hearlier
    · have hgreater := Std.OrientedCmp.gt_of_lt hless
      change (compare first.priority newer.priority).isLE = true at hnotLess
      rw [hgreater] at hnotLess
      exact absurd hnotLess (by decide)
    · rw [hlater] at hearlier
      exact absurd hearlier (by decide)

omit [Std.TransOrd π] in
/-- The numbers stay when one entry is taken out, and start again when none is left. -/
theorem Numbers.without (hnumbers : stack.Numbers entries history)
    {front back : List (Entry α π)} {first : Entry α π} {rest : Array (Entry α π)}
    (hentries : entries = front ++ first :: back)
    (hlive : history.pop.live = (front ++ back).map Entry.pair)
    (hrest : rest.toList.Perm (front ++ back))
    (hheap : Heap.IsHeap stack.queue.direction.precedes rest) :
    ({ queue := ⟨stack.queue.direction, rest⟩
       nextSequence := if rest.isEmpty then 0 else stack.nextSequence } :
      PriorityStack α π).Numbers (front ++ back) history.pop := by
  have hempty : rest.isEmpty = history.pop.live.isEmpty := by
    rw [hlive, List.isEmpty_map, ← hrest.isEmpty_eq, Array.isEmpty_toList]
  have hpushes : history.pop.pushes =
      if history.pop.live.isEmpty then 0 else history.pushes := rfl
  have hkept : (front ++ back).Sublist entries := by
    rw [hentries]
    exact List.Sublist.append_left (List.sublist_cons_self first back) front
  exact {
    direction_eq := hnumbers.direction_eq
    ordered := hheap
    heap_perm := hrest
    pairs_eq := hlive.symm
    newer := hnumbers.newer.sublist hkept
    below := by
      intro entry hentry
      have hnonempty : history.pop.live.isEmpty = false := by
        rw [hlive, List.isEmpty_map, List.isEmpty_eq_false_iff]
        exact List.ne_nil_of_mem hentry
      dsimp only
      rw [hempty, hnonempty]
      exact hnumbers.below entry (hkept.subset hentry)
    next_eq := by
      dsimp only
      rw [hempty, hpushes]
      split
      · rfl
      · exact hnumbers.next_eq
    idle := by
      intro hnil
      rw [hpushes, hnil]
      rfl }

/-- The heap and the counter of a stack stand for a history. -/
def Represents (stack : PriorityStack α π) (history : PushHistory α π) : Prop :=
  ∃ entries, stack.Numbers entries history

/-- A stack announces and serves the pair that its history tells, and keeps the other ones. -/
structure Serves (stack : PriorityStack α π) (history : PushHistory α π) : Prop where
  peeked : stack.queue.peek?.map Entry.pair = history.top?
  popped : stack.popWithPriority.1 = history.top?
  none_iff : history.top? = none ↔ history.live = []
  rest : stack.popWithPriority.2.Represents history.pop

theorem Numbers.serves (hnumbers : stack.Numbers entries history) : stack.Serves history := by
  rcases hnumbers.ordered.pop_cases with ⟨hempty, hpop⟩ | ⟨first, rest, hpop, hpeek, hperm, hheap⟩
  · have hentries : entries = [] := by
      have hnil := hnumbers.heap_perm
      rw [hempty] at hnil
      exact List.nil_perm.mp hnil
    have hlive : history.live = [] := by
      rw [← hnumbers.pairs_eq, hentries, List.map_nil]
    obtain ⟨htop, hsame⟩ := PushHistory.pop_of_nil hlive (hnumbers.idle hlive)
    exact {
      peeked := by
        rw [PriorityQueue.peek?, hempty, htop]
        rfl
      popped := by rw [PriorityStack.popWithPriority, hpop, htop]
      none_iff := iff_of_true htop hlive
      rest := by
        rw [PriorityStack.popWithPriority, hpop, hsame]
        exact ⟨entries, hnumbers⟩ }
  · have hentries := hnumbers.heap_perm.symm.trans hperm
    obtain ⟨front, back, hsplit⟩ := List.append_of_mem (hentries.mem_iff.mpr List.mem_cons_self)
    have hrest : rest.toList.Perm (front ++ back) := by
      rw [hsplit] at hentries
      exact (hentries.symm.trans List.perm_middle).cons_inv
    have hfirst : ∀ other ∈ entries, stack.queue.direction.precedes other first = false :=
      fun other hother =>
        hnumbers.ordered.peek_first hpeek other (hnumbers.heap_perm.mem_iff.mpr hother)
    have hlive : history.live = front.map Entry.pair ++ first.pair :: back.map Entry.pair := by
      rw [← hnumbers.pairs_eq, hsplit, List.map_append, List.map_cons]
    obtain ⟨htop, hnewer⟩ := hnumbers.top_of_first hsplit hfirst
    obtain ⟨hserved, hremaining⟩ := PushHistory.pop_of_split hlive htop hnewer
    rw [← List.map_append] at hremaining
    exact {
      peeked := by rw [hpeek, hserved, Option.map_some]
      popped := by
        rw [PriorityStack.popWithPriority, hpop, hserved]
        rfl
      none_iff := by
        rw [hserved, hlive]
        exact iff_of_false (Option.some_ne_none _) (by simp)
      rest := by
        rw [PriorityStack.popWithPriority, hpop]
        exact ⟨front ++ back, hnumbers.without hsplit hremaining hrest hheap⟩ }

/-! ## Runs -/

theorem Represents.perform (hrepresents : stack.Represents history) (call : StackCall α π)
    (hroom : history.HasRoom call) :
    (history.perform call).1 = (stack.perform call).1 ∧
      (stack.perform call).2.Represents (history.perform call).2 := by
  obtain ⟨entries, hnumbers⟩ := hrepresents
  have hserves := hnumbers.serves
  cases call with
  | push value priority => exact ⟨rfl, _, hnumbers.push value priority hroom⟩
  | pop =>
      refine ⟨?_, hserves.rest⟩
      change StackAnswer.popped (history.top?.map Prod.fst) =
        .popped (stack.popWithPriority.1.map Prod.fst)
      rw [hserves.popped]
  | popWithPriority =>
      refine ⟨?_, hserves.rest⟩
      change StackAnswer.poppedWithPriority history.top? =
        .poppedWithPriority stack.popWithPriority.1
      rw [hserves.popped]
  | clear => exact ⟨rfl, [], numbers_clear stack hnumbers.direction_eq⟩

theorem Represents.run (hrepresents : stack.Represents history) (calls : List (StackCall α π))
    (hroom : Calls.Throughout PushHistory.perform PushHistory.HasRoom history calls) :
    (Calls.run PushHistory.perform history calls).1 =
        (Calls.run PriorityStack.perform stack calls).1 ∧
      (Calls.run PriorityStack.perform stack calls).2.Represents
        (Calls.run PushHistory.perform history calls).2 := by
  have hstep : ∀ (history : PushHistory α π) (stack : PriorityStack α π) (call : StackCall α π),
      history.HasRoom call → stack.Represents history →
        (history.perform call).1 = (stack.perform call).1 ∧
          (stack.perform call).2.Represents (history.perform call).2 :=
    fun history stack call hallowed hrelated => hrelated.perform call hallowed
  exact Calls.run_agrees hstep calls history stack hrepresents hroom

/-- Another stack with the same entries and the same counter, in any layout of the heap. -/
structure Rearranged (stack other : PriorityStack α π) : Prop where
  direction_eq : other.queue.direction = stack.queue.direction
  ordered : other.queue.Ordered
  heap_perm : other.queue.heap.Perm stack.queue.heap
  next_eq : other.nextSequence = stack.nextSequence

omit [Std.TransOrd π] in
theorem Represents.rearranged (hrepresents : stack.Represents history)
    {other : PriorityStack α π} (hrearranged : stack.Rearranged other) :
    other.Represents history := by
  obtain ⟨entries, hnumbers⟩ := hrepresents
  refine ⟨entries, { hnumbers with
    direction_eq := hrearranged.direction_eq.trans hnumbers.direction_eq
    ordered := hrearranged.ordered
    heap_perm := hrearranged.heap_perm.toList.trans hnumbers.heap_perm
    below := ?_
    next_eq := ?_ }⟩
  · rw [hrearranged.next_eq]
    exact hnumbers.below
  · rw [hrearranged.next_eq]
    exact hnumbers.next_eq

/-- All that can be seen of a stack is as its history says, and the live entries have different
numbers below the next one. -/
structure Agrees (stack : PriorityStack α π) (history : PushHistory α π) : Prop where
  length : stack.length = history.live.length
  isEmpty : stack.isEmpty = history.live.isEmpty
  peek? : stack.peek? = history.top?.map Prod.fst
  peekPriority? : stack.peekPriority? = history.top?.map Prod.snd
  top?_eq_none_iff : history.top? = none ↔ history.live = []
  live : stack.toList.Perm history.live
  distinct : (stack.queue.toList.map Entry.sequence).Nodup
  below : ∀ entry ∈ stack.queue.toList, entry.sequence < stack.nextSequence

theorem Represents.agrees (hrepresents : stack.Represents history) : stack.Agrees history := by
  obtain ⟨entries, hnumbers⟩ := hrepresents
  have hserves := hnumbers.serves
  have hpairs : stack.toList.Perm history.live := by
    rw [← hnumbers.pairs_eq]
    exact hnumbers.heap_perm.map Entry.pair
  have hlength : stack.toList.length = stack.length := by
    rw [PriorityStack.toList, List.length_map]
    exact Array.length_toList
  have hnumbered : (entries.map Entry.sequence).Nodup := by
    rw [List.Nodup, List.pairwise_map]
    apply hnumbers.newer.imp
    exact fun hless heq => absurd hless (heq ▸ UInt64.lt_irrefl _)
  exact {
    length := by rw [← hlength, hpairs.length_eq]
    isEmpty := by
      rw [← hpairs.isEmpty_eq, PriorityStack.toList, List.isEmpty_map]
      exact Array.isEmpty_toList.symm
    peek? := by
      rw [← hserves.peeked, Option.map_map]
      rfl
    peekPriority? := by
      rw [← hserves.peeked, Option.map_map]
      rfl
    top?_eq_none_iff := hserves.none_iff
    live := hpairs
    distinct := (hnumbers.heap_perm.map Entry.sequence).nodup_iff.mpr hnumbered
    below := fun entry hentry => hnumbers.below entry (hnumbers.heap_perm.mem_iff.mp hentry) }

/-- A new stack serves, after every call, the newest of the pairs with the highest priority, as
long as its numbers fit into words.  What it does afterwards does not depend on the layout of
its heap. -/
theorem empty_run_newest_first (calls : List (StackCall α π))
    (hroom : Calls.Throughout PushHistory.perform PushHistory.HasRoom .empty calls) :
    (Calls.run perform empty calls).1 = (Calls.run PushHistory.perform .empty calls).1 ∧
      (Calls.run perform empty calls).2.Agrees (Calls.run PushHistory.perform .empty calls).2 ∧
        ∀ other, (Calls.run perform empty calls).2.Rearranged other →
          ∀ later, Calls.Throughout PushHistory.perform PushHistory.HasRoom
              (Calls.run PushHistory.perform .empty calls).2 later →
            (Calls.run perform other later).1 =
              (Calls.run perform (Calls.run perform empty calls).2 later).1 := by
  have hempty : (empty : PriorityStack α π).Represents .empty :=
    ⟨[], numbers_clear empty rfl⟩
  obtain ⟨hanswers, hfinal⟩ := hempty.run calls hroom
  refine ⟨hanswers.symm, hfinal.agrees, ?_⟩
  intro other hrearranged later hlater
  rw [← ((hfinal.rearranged hrearranged).run later hlater).1, (hfinal.run later hlater).1]

/-- Calls in which priorities are equal but can be told apart, and the stack becomes empty. -/
def rankingCalls : List (StackCall Nat Element) :=
  [.push 1 (.tagged 5 1), .push 2 (.tagged 5 2), .push 3 (.tagged 1 3), .popWithPriority,
    .pop, .pop, .pop, .push 4 (.tagged 0 4), .push 5 (.tagged 0 5)]

theorem empty_run_newest_first_rankingCalls :
    Calls.Throughout PushHistory.perform PushHistory.HasRoom .empty rankingCalls ∧
      (Calls.run perform empty rankingCalls).1 =
        [.done, .done, .done, .poppedWithPriority (some (2, .tagged 5 2)), .popped (some 1),
          .popped (some 3), .popped none, .done, .done] ∧
      (Calls.run perform empty rankingCalls).2.peekPriority? = some (.tagged 0 5) ∧
      (Calls.run perform empty rankingCalls).2.nextSequence = 2 := by
  have hroom : Calls.Throughout PushHistory.perform PushHistory.HasRoom .empty rankingCalls := by
    refine ⟨?_, ?_, ?_, trivial, trivial, trivial, trivial, ?_, ?_, trivial⟩ <;> decide
  obtain ⟨hanswers, hagrees, -⟩ := empty_run_newest_first rankingCalls hroom
  exact ⟨hroom, hanswers, hagrees.peekPriority?, by cbv⟩

end PriorityStack

end Collections
