import Mathlib
import Collections.Element
import Collections.Proofs.Run
import Collections.Proofs.Sorted.Writes

/-!
# Runs of a sorted list

What each call does to the instances that a list holds, counted as often as they are in it,
and where it leaves a given instance.  No call brings a list out of order, so every list
that calls lead to is ordered, and each further call has the stated effect.
-/

namespace Collections

universe u

/-- A call that can change a sorted list. -/
inductive SortedCall (α : Type u) where
  | insert (item : α)
  | set (index : Nat) (value : α)
  | remove (item : α)
  | removeAt (index : Nat)
  | reverse
  | extend (items : List α)
  | clear

/-- The direction of a list after a call. -/
def SortedCall.turn {α : Type u} (direction : Direction) : SortedCall α → Direction
  | .reverse => direction.reversed
  | _ => direction

/-- What a sorted list answers to a call. -/
inductive SortedAnswer (α : Type u) where
  /-- Where the item stands. -/
  | inserted (position : Nat)
  /-- Where the value stands. -/
  | written (result : Except Fault Nat)
  /-- Whether there was something to remove. -/
  | removed (found : Bool)
  | taken (result : Except Fault α)
  | done

namespace SortedList

variable {α : Type u}

/-- The elements as instances, which can be told apart even if they are equal. -/
def instances (list : SortedList α) : Multiset α :=
  list.toList

theorem instances_of_parts {list : SortedList α} {front back : List α} {resident : α}
    (hparts : list.toList = front ++ resident :: back) :
    list.instances = resident ::ₘ (front ++ back : List α) := by
  rw [instances, hparts]
  exact Multiset.coe_eq_coe.mpr List.perm_middle

theorem instances_reverse (list : SortedList α) : list.reverse.instances = list.instances := by
  rw [instances, instances, toList_reverse]
  exact Multiset.coe_reverse _

variable [Ord α]

def perform (list : SortedList α) : SortedCall α → SortedAnswer α × SortedList α
  | .insert item =>
    let result := list.insert item
    (.inserted result.1, result.2)
  | .set index value =>
    let step := list.set index value
    (.written step.result, step.state)
  | .remove item =>
    let result := list.remove item
    (.removed result.1, result.2)
  | .removeAt index =>
    let result := list.removeAt index
    (.taken result.1, result.2)
  | .reverse => (.done, list.reverse)
  | .extend items => (.done, list.extend items)
  | .clear => (.done, list.clear)

/-- A new list, empty or of given items in any order. -/
def Initial (list : SortedList α) : Prop :=
  (∃ direction, list = empty direction) ∨ ∃ direction items, list = ofList direction items

/-- The lists that any calls lead to. -/
def Reachable (list : SortedList α) : Prop :=
  Calls.Reachable Initial perform list

/-- What a call of a list may answer, and which instances the list may hold after it. -/
inductive Effect (list : SortedList α) :
    SortedCall α → SortedAnswer α → SortedList α → Prop
  | inserted {item : α} {position : Nat} {after : SortedList α}
      (hplace : after.items[position]? = some item)
      (hinstances : after.instances = item ::ₘ list.instances) :
      Effect list (.insert item) (.inserted position) after
  /-- A value equal to the resident is not written. -/
  | kept {index : Nat} {value resident : α}
      (hresident : list.items[index]? = some resident)
      (hequal : compare resident value = .eq) :
      Effect list (.set index value) (.written (.ok index)) list
  | written {index : Nat} {value resident : α} {position : Nat} {after : SortedList α}
      (hresident : list.items[index]? = some resident)
      (hunequal : compare resident value ≠ .eq)
      (hplace : after.items[position]? = some value)
      (hinstances : resident ::ₘ after.instances = value ::ₘ list.instances) :
      Effect list (.set index value) (.written (.ok position)) after
  | notWritten {index : Nat} {value : α} (houtside : list.length ≤ index) :
      Effect list (.set index value)
        (.written (.error (.outOfBounds index list.length))) list
  | removed {item dropped : α} {after : SortedList α}
      (hequal : compare dropped item = .eq)
      (hinstances : list.instances = dropped ::ₘ after.instances) :
      Effect list (.remove item) (.removed true) after
  | notRemoved {item : α}
      (habsent : ∀ resident ∈ list.instances, compare resident item ≠ .eq) :
      Effect list (.remove item) (.removed false) list
  | taken {index : Nat} {resident : α} {after : SortedList α}
      (hresident : list.items[index]? = some resident)
      (hinstances : list.instances = resident ::ₘ after.instances) :
      Effect list (.removeAt index) (.taken (.ok resident)) after
  | notTaken {index : Nat} (houtside : list.length ≤ index) :
      Effect list (.removeAt index) (.taken (.error (.outOfBounds index list.length))) list
  | reversed {after : SortedList α} (hinstances : after.instances = list.instances) :
      Effect list .reverse .done after
  | extended {items : List α} {after : SortedList α}
      (hinstances : after.instances = (items : Multiset α) + list.instances) :
      Effect list (.extend items) .done after
  | cleared {after : SortedList α} (hinstances : after.instances = 0) :
      Effect list .clear .done after

/-- Insertions one at a time are one extension. -/
theorem run_insert (items : List α) (list : SortedList α) :
    (Calls.run perform list (items.map .insert)).2 = list.extend items := by
  induction items generalizing list with
  | nil => rfl
  | cons item items ih => exact ih (list.insert item).2

variable [Std.TransOrd α] {list : SortedList α}

/-! ## What one call does -/

/-- The item is added to the instances and stands at the position that is told. -/
theorem Ordered.instances_insert (hordered : list.Ordered) (item : α) :
    (list.insert item).2.instances = item ::ₘ list.instances ∧
      (list.insert item).2.items[(list.insert item).1]? = some item := by
  obtain ⟨front, back, hdivides⟩ := hordered.exists_divides item
  obtain ⟨hposition, hinserted, -⟩ := hdivides.insert
  constructor
  · rw [instances_of_parts hinserted, instances, hdivides.toList_eq]
  · rw [hposition]
    exact getElem?_of_parts hinserted

theorem Ordered.extend (items : List α) :
    ∀ {list : SortedList α}, list.Ordered →
      (list.extend items).Ordered ∧
        (list.extend items).instances = (items : Multiset α) + list.instances ∧
          (list.extend items).direction = list.direction := by
  induction items with
  | nil =>
      intro list hordered
      exact ⟨hordered, (zero_add _).symm, rfl⟩
  | cons item items ih =>
      intro list hordered
      obtain ⟨hextended, hinstances, hdirection⟩ := ih (hordered.insert item)
      refine ⟨hextended, ?_, hdirection⟩
      calc
        ((list.insert item).2.extend items).instances =
            (items : Multiset α) + (item ::ₘ list.instances) := by
          rw [hinstances, (hordered.instances_insert item).1]
        _ = ((item :: items : List α) : Multiset α) + list.instances := by
          rw [Multiset.add_cons, ← Multiset.cons_coe, Multiset.cons_add]

omit [Std.TransOrd α] in
theorem direction_set (list : SortedList α) (index : Nat) (value : α) :
    (list.set index value).state.direction = list.direction := by
  rw [SortedList.set]
  split
  · split
    · rfl
    · split <;> rfl
  · rfl

omit [Ord α] [Std.TransOrd α] in
theorem sublist_removeAt (list : SortedList α) (index : Nat) :
    (list.removeAt index).2.toList.Sublist list.toList ∧
      (list.removeAt index).2.direction = list.direction := by
  by_cases hindex : index < list.items.size
  · obtain ⟨front, back, hparts, hlength⟩ := exists_parts hindex
    subst hlength
    obtain ⟨-, hremoved, hdirection⟩ := removeAt_of_parts hparts
    rw [hremoved, show list.toList = _ from hparts]
    exact ⟨sublist_of_parts front back _, hdirection⟩
  · rw [removeAt_of_le (Nat.le_of_not_lt hindex)]
    exact ⟨List.Sublist.refl _, rfl⟩

omit [Std.TransOrd α] in
theorem Ordered.removeAt (hordered : list.Ordered) (index : Nat) :
    (list.removeAt index).2.Ordered := by
  obtain ⟨hsublist, hdirection⟩ := sublist_removeAt list index
  have hremoved := hordered.of_sublist hsublist
  rwa [← hdirection] at hremoved

theorem Ordered.sublist_remove (hordered : list.Ordered) (item : α) :
    (list.remove item).2.toList.Sublist list.toList ∧
      (list.remove item).2.direction = list.direction := by
  rcases hordered.find?_cases item with
    ⟨front, resident, back, hparts, hfound, -, -⟩ | ⟨hmissing, -⟩
  · obtain ⟨-, hremoved, hdirection⟩ := remove_of_some hfound hparts
    rw [hremoved, hparts]
    exact ⟨sublist_of_parts front back _, hdirection⟩
  · rw [remove_of_none hmissing]
    exact ⟨List.Sublist.refl _, rfl⟩

/-- No call brings a list out of order, and only a reversal turns its direction. -/
theorem Ordered.perform (hordered : list.Ordered) (call : SortedCall α) :
    (list.perform call).2.Ordered ∧
      (list.perform call).2.direction = call.turn list.direction := by
  cases call with
  | insert item => exact ⟨hordered.insert item, rfl⟩
  | set index value => exact ⟨hordered.set index value, direction_set list index value⟩
  | remove item =>
      obtain ⟨hsublist, hdirection⟩ := hordered.sublist_remove item
      refine ⟨?_, hdirection⟩
      have hremoved := hordered.of_sublist hsublist
      rwa [← hdirection] at hremoved
  | removeAt index => exact ⟨hordered.removeAt index, (sublist_removeAt list index).2⟩
  | reverse => exact ⟨hordered.reverse, rfl⟩
  | extend items =>
      obtain ⟨hextended, -, hdirection⟩ := hordered.extend items
      exact ⟨hextended, hdirection⟩
  | clear => exact ⟨ordered_empty list.direction, rfl⟩

theorem Ordered.effect_set (hordered : list.Ordered) (index : Nat) (value : α) :
    Effect list (.set index value) (.written (list.set index value).result)
      (list.set index value).state := by
  by_cases hindex : index < list.items.size
  · obtain ⟨front, back, hparts, hlength⟩ := exists_parts hindex
    subst hlength
    have hresident := getElem?_of_parts hparts
    have hbefore := instances_of_parts hparts
    rcases set_cases hparts value with ⟨hequal, hset⟩ | ⟨hunequal, -, items, hitems, hset⟩ |
      ⟨hunequal, -, items, hitems, hset⟩
    · rw [hset]
      exact .kept hresident hequal
    · rw [hset]
      apply Effect.written hresident hunequal (getElem?_of_parts hitems)
      have hlist : (⟨list.direction, items⟩ : SortedList α).toList = front ++ value :: back :=
        hitems
      rw [Step.quiet, instances_of_parts hlist, hbefore, Multiset.cons_swap]
    · rw [hset]
      have herased : (⟨list.direction, items⟩ : SortedList α).Ordered := by
        apply hordered.of_sublist
        rw [hitems, show list.toList = _ from hparts]
        exact sublist_of_parts front back _
      obtain ⟨hafter, hplace⟩ := herased.instances_insert value
      apply Effect.written hresident hunequal hplace
      rw [hafter, hbefore, Multiset.cons_swap, instances, toList, hitems]
  · rw [set_of_le (Nat.le_of_not_lt hindex)]
    exact .notWritten (Nat.le_of_not_lt hindex)

theorem Ordered.effect_remove (hordered : list.Ordered) (item : α) :
    Effect list (.remove item) (.removed (list.remove item).1) (list.remove item).2 := by
  rcases hordered.find?_cases item with
    ⟨front, resident, back, hparts, hfound, hequal, -⟩ | ⟨hmissing, habsent⟩
  · obtain ⟨hanswer, hremoved, -⟩ := remove_of_some hfound hparts
    rw [hanswer]
    apply Effect.removed hequal
    rw [instances_of_parts hparts, instances, hremoved]
  · rw [remove_of_none hmissing]
    exact .notRemoved habsent

omit [Std.TransOrd α] in
theorem effect_removeAt (list : SortedList α) (index : Nat) :
    Effect list (.removeAt index) (.taken (list.removeAt index).1)
      (list.removeAt index).2 := by
  by_cases hindex : index < list.items.size
  · obtain ⟨front, back, hparts, hlength⟩ := exists_parts hindex
    subst hlength
    obtain ⟨hanswer, hremoved, -⟩ := removeAt_of_parts hparts
    rw [hanswer]
    apply Effect.taken (getElem?_of_parts hparts)
    rw [instances_of_parts hparts, instances, hremoved]
  · rw [removeAt_of_le (Nat.le_of_not_lt hindex)]
    exact .notTaken (Nat.le_of_not_lt hindex)

theorem Ordered.effect (hordered : list.Ordered) (call : SortedCall α) :
    Effect list call (list.perform call).1 (list.perform call).2 := by
  cases call with
  | insert item =>
      obtain ⟨hinstances, hplace⟩ := hordered.instances_insert item
      exact .inserted hplace hinstances
  | set index value => exact hordered.effect_set index value
  | remove item => exact hordered.effect_remove item
  | removeAt index => exact effect_removeAt list index
  | reverse => exact .reversed (instances_reverse list)
  | extend items => exact .extended (hordered.extend items).2.1
  | clear => exact .cleared rfl

/-! ## Reachable lists -/

theorem Reachable.ordered (hreached : list.Reachable) : list.Ordered := by
  apply Calls.Reachable.invariant _ _ hreached
  · intro start hinitial
    rcases hinitial with ⟨direction, hempty⟩ | ⟨direction, items, hitems⟩
    · rw [hempty]
      exact ordered_empty direction
    · rw [hitems]
      exact ordered_ofList direction items
  · intro state call hordered
    exact (hordered.perform call).1

/-- A list is always ordered in its direction, and each call answers and changes the
instances as it should. -/
theorem Reachable.ordered_effect (hreached : list.Reachable) :
    (∀ (first second : Nat) (hfirst : first < list.items.size)
      (hsecond : second < list.items.size), first < second →
        list.direction.compare list.items[first] list.items[second] ≠ .gt) ∧
      ∀ call, Effect list call (list.perform call).1 (list.perform call).2 ∧
        (list.perform call).2.direction = call.turn list.direction := by
  have hordered := hreached.ordered
  refine ⟨(ordered_iff_compare_ne list).mp hordered, ?_⟩
  intro call
  exact ⟨hordered.effect call, (hordered.perform call).2⟩

/-- Calls in which equal instances meet, the direction turns, and a write moves its value. -/
def turningCalls : List (SortedCall Element) :=
  [.insert (.tagged 5 3), .reverse, .set 0 (.tagged 2 4), .remove (.tagged 5 9),
    .extend [.tagged 7 5, .tagged 5 6]]

theorem ordered_effect_turningCalls :
    ∃ list : SortedList Element, list.Reachable ∧ list.direction = .descending ∧
      list.toList = [.tagged 7 5, .tagged 5 6, .tagged 5 3, .tagged 3 1, .tagged 2 4] ∧
      (∀ (first second : Nat) (hfirst : first < list.items.size)
        (hsecond : second < list.items.size), first < second →
          list.direction.compare list.items[first] list.items[second] ≠ .gt) ∧
        ∀ call, Effect list call (list.perform call).1 (list.perform call).2 ∧
          (list.perform call).2.direction = call.turn list.direction := by
  have hinitial : Initial
      (ofList .ascending [.tagged 5 1, .tagged 5 2, .tagged 3 1] : SortedList Element) :=
    Or.inr ⟨.ascending, [.tagged 5 1, .tagged 5 2, .tagged 3 1], rfl⟩
  have hreached : Reachable (Calls.run perform
      (ofList .ascending [.tagged 5 1, .tagged 5 2, .tagged 3 1] : SortedList Element)
      turningCalls).2 :=
    Calls.Reachable.run turningCalls (.start hinitial)
  exact ⟨_, hreached, by cbv, by cbv, hreached.ordered_effect⟩

end SortedList

end Collections
