import Mathlib
import Collections.Element
import Collections.Proofs.Cursor
import Collections.Proofs.Run
import Collections.Proofs.Sequence.Ring

/-!
# Runs of a deque

A deque answers every call as a plain sequence does: where its head stands, how often its ring
was doubled and which slots were in use before never show.
-/

namespace Collections

universe u

/-- A call that can change a deque. -/
inductive DequeCall (α : Type u) where
  | pushBack (value : α)
  | pushFront (value : α)
  | popFront
  | popBack
  /-- A change of the element at an index, in place. -/
  | modify (index : Nat) (change : α → α)
  | extend (values : List α)
  | clear

/-- What a deque answers to a call. -/
inductive DequeAnswer (α : Type u) where
  | done
  /-- The element that a call took out or found, if there was one. -/
  | met (item : Option α)

variable {α : Type u}

/-- What a plain sequence answers to a call, and the sequence after it. -/
def DequeCall.onSequence (items : List α) : DequeCall α → DequeAnswer α × List α
  | .pushBack value => (.done, items ++ [value])
  | .pushFront value => (.done, value :: items)
  | .popFront => (.met items.head?, items.tail)
  | .popBack => (.met items.getLast?, items.dropLast)
  | .modify index change => (.met items[index]?, items.modify index change)
  | .extend values => (.done, items ++ values)
  | .clear => (.done, [])

namespace Deque

def perform (deque : Deque α) : DequeCall α → DequeAnswer α × Deque α
  | .pushBack value => (.done, (deque.pushBack value).state)
  | .pushFront value => (.done, (deque.pushFront value).state)
  | .popFront =>
    let result := deque.popFront
    (.met result.1, result.2)
  | .popBack =>
    let result := deque.popBack
    (.met result.1, result.2)
  | .modify index change =>
    let result := deque.modify index change
    (.met result.1, result.2)
  | .extend values => (.done, (deque.extend values).state)
  | .clear => (.done, deque.clear)

/-- A new deque and the sequence that it is made of. -/
inductive Initial : Deque α → List α → Prop
  | empty : Initial empty []
  | withCapacity (capacity : Nat) : Initial (withCapacity capacity) []
  | ofList (items : List α) : Initial (ofList items).state items

variable {deque : Deque α} {items : List α}

theorem Represents.extend (values : List α) :
    ∀ {deque : Deque α} {items : List α}, deque.Represents items →
      (deque.extend values).state.Represents (items ++ values) := by
  induction values with
  | nil => exact fun hrepresents => (List.append_nil _).symm ▸ hrepresents
  | cons value values ih =>
      intro deque items hrepresents
      rw [List.append_cons]
      exact ih (hrepresents.pushBack value)

theorem Initial.represents (hinitial : Initial deque items) : deque.Represents items := by
  cases hinitial with
  | empty => exact represents_withCapacity initialCapacity
  | withCapacity capacity => exact represents_withCapacity capacity
  | ofList items => exact (represents_withCapacity initialCapacity).extend items

/-- A call is answered as by the sequence, and the ring holds the sequence after it. -/
theorem Represents.perform (hrepresents : deque.Represents items) (call : DequeCall α) :
    (deque.perform call).1 = (call.onSequence items).1 ∧
      (deque.perform call).2.Represents (call.onSequence items).2 := by
  cases call with
  | pushBack value => exact ⟨rfl, hrepresents.pushBack value⟩
  | pushFront value => exact ⟨rfl, hrepresents.pushFront value⟩
  | popFront =>
      obtain ⟨hanswer, hrest⟩ := hrepresents.popFront
      exact ⟨congrArg DequeAnswer.met hanswer, hrest⟩
  | popBack =>
      obtain ⟨hanswer, hrest⟩ := hrepresents.popBack
      exact ⟨congrArg DequeAnswer.met hanswer, hrest⟩
  | modify index change =>
      obtain ⟨hanswer, hchanged⟩ := hrepresents.modify index change
      exact ⟨congrArg DequeAnswer.met hanswer, hchanged⟩
  | extend values => exact ⟨rfl, hrepresents.extend values⟩
  | clear => exact ⟨rfl, hrepresents.clear⟩

/-! ## Walks -/

/-- A walk over a deque with these items has some of them before it. -/
def Shows (items : List α) (walk : Walk α) (left : List α) : Prop :=
  walk.deque.Represents items ∧
    ∃ before after, items = before ++ left ++ after ∧
      walk.front = before.length ∧ walk.back = before.length + left.length

theorem Shows.next {walk : Walk α} {left : List α} (hshows : Shows items walk left) :
    walk.next.1 = left.head? ∧ Shows items walk.next.2 left.tail := by
  obtain ⟨hrepresents, before, after, hitems, hfront, hback⟩ := hshows
  rw [Walk.next, hrepresents.get?_eq]
  cases left with
  | nil =>
      rw [if_pos (hfront.trans hback.symm)]
      exact ⟨rfl, hrepresents, before, after, hitems, hfront, hback⟩
  | cons item rest =>
      have hother : walk.front ≠ walk.back := by
        rw [hfront, hback, List.length_cons]
        omega
      have hitem : items[walk.front]? = some item := by
        rw [hitems, hfront, List.append_assoc, List.getElem?_append_right (Nat.le_refl _),
          Nat.sub_self]
        rfl
      rw [if_neg hother, hitem]
      refine ⟨rfl, hrepresents, before ++ [item], after, ?_, ?_, ?_⟩
      · rw [hitems, List.append_cons]
        rfl
      · rw [hfront, List.length_append]
        rfl
      · rw [hback, List.length_append, List.length_cons, Nat.add_assoc]
        exact congrArg _ (Nat.add_comm _ _)

theorem Shows.nextBack {walk : Walk α} {left : List α} (hshows : Shows items walk left) :
    walk.nextBack.1 = left.getLast? ∧ Shows items walk.nextBack.2 left.dropLast := by
  obtain ⟨hrepresents, before, after, hitems, hfront, hback⟩ := hshows
  rw [Walk.nextBack, hrepresents.get?_eq]
  cases left using List.reverseRecOn with
  | nil =>
      rw [if_pos (hfront.trans hback.symm)]
      exact ⟨rfl, hrepresents, before, after, hitems, hfront, hback⟩
  | append_singleton rest item =>
      have hend : walk.back - 1 = before.length + rest.length := by
        rw [hback, List.length_append]
        rfl
      have hother : walk.front ≠ walk.back := by
        rw [hfront, hback, List.length_append, List.length_singleton]
        omega
      have hitem : items[before.length + rest.length]? = some item := by
        rw [hitems, ← List.append_assoc, ← List.length_append,
          List.getElem?_append_left (by simp), List.getElem?_concat_length]
      rw [if_neg hother, hend, hitem, List.getLast?_concat, List.dropLast_concat]
      refine ⟨rfl, hrepresents, before, item :: after, ?_, hfront, rfl⟩
      rw [hitems, ← List.append_assoc, List.append_assoc, List.singleton_append]

theorem yields_shows (items : List α) : DoubleEndedCursor.Yields (Shows items) where
  take_eq side walk left hshows := by
    cases side with
    | front => exact hshows.next
    | back => exact hshows.nextBack
  remaining_eq := by
    rintro walk left ⟨-, before, after, -, hfront, hback⟩
    change walk.back - walk.front = left.length
    rw [hfront, hback, Nat.add_sub_cancel_left]

theorem Represents.shows_walk (hrepresents : deque.Represents items) :
    Shows items deque.walk items := by
  refine ⟨hrepresents, [], [], ?_, rfl, ?_⟩
  · rw [List.nil_append, List.append_nil]
  · exact hrepresents.length_eq.trans (Nat.zero_add _).symm

/-- Calls from either end, in any pattern, take the items from that end of what is left. -/
theorem Represents.calls_walk (hrepresents : deque.Represents items)
    (pattern : List SequenceEnd) :
    DoubleEndedCursor.calls pattern deque.walk = DoubleEndedCursor.visits items pattern :=
  (yields_shows items).calls_eq_visits pattern hrepresents.shows_walk

/-! ## What a deque shows -/

theorem filterMap_getElem?_range (items : List α) :
    (List.range items.length).filterMap (items[·]?) = items := by
  induction items with
  | nil => rfl
  | cons item items ih =>
      rw [List.length_cons, List.range_succ_eq_map, List.filterMap_cons, List.filterMap_map]
      exact congrArg (List.cons item) ih

theorem Represents.toList_eq (hrepresents : deque.Represents items) : deque.toList = items := by
  have hget : deque.get? = (items[·]?) := funext hrepresents.get?_eq
  rw [toList, hget, hrepresents.length_eq, filterMap_getElem?_range]

variable [BEq α]

/-- A deque shows a sequence, and its ring holds it and nothing else. -/
structure Agrees (deque : Deque α) (items : List α) : Prop where
  capacity_pow : ∃ exponent, deque.capacity = 2 ^ exponent
  capacity_eq : deque.capacity = deque.mask + 1
  head_lt : deque.head < deque.capacity
  length_le : deque.length ≤ deque.capacity
  held : ∀ index (hindex : index < items.length),
    deque.slots[(deque.head + index) % deque.capacity]? = some (some items[index])
  vacant : ∀ place < deque.capacity,
    (∀ index < deque.length, (deque.head + index) % deque.capacity ≠ place) →
      deque.slots[place]? = some none
  length_eq : deque.length = items.length
  isEmpty_eq : deque.isEmpty = items.isEmpty
  get?_eq : ∀ index, deque.get? index = items[index]?
  modify_eq : ∀ index change, (deque.modify index change).1 = items[index]?
  front?_eq : deque.front? = items.head?
  back?_eq : deque.back? = items.getLast?
  contains_eq : ∀ value, deque.contains value = items.any (· == value)
  toList_eq : deque.toList = items
  calls_walk : ∀ pattern,
    DoubleEndedCursor.calls pattern deque.walk = DoubleEndedCursor.visits items pattern

theorem Represents.agrees (hrepresents : deque.Represents items) : deque.Agrees items where
  capacity_pow := hrepresents.capacity_pow
  capacity_eq := hrepresents.capacity_eq
  head_lt := hrepresents.head_lt
  length_le := hrepresents.length_eq.trans_le hrepresents.length_le
  held := by
    intro index hindex
    rw [← List.getElem?_eq_getElem hindex]
    exact hrepresents.around index (Nat.lt_of_lt_of_le hindex hrepresents.length_le)
  vacant := by
    intro place hplace hother
    obtain ⟨offset, hoffset, hat⟩ := exists_offset hrepresents.head_lt hplace
    have hbeyond : items.length ≤ offset := by
      rw [← hrepresents.length_eq]
      exact Nat.le_of_not_lt fun hused => hother offset hused hat
    rw [← hat, ← List.getElem?_eq_none hbeyond]
    exact hrepresents.around offset hoffset
  length_eq := hrepresents.length_eq
  isEmpty_eq := by
    rw [isEmpty, hrepresents.length_eq]
    cases items <;> rfl
  get?_eq := hrepresents.get?_eq
  modify_eq := fun index change => (hrepresents.modify index change).1
  front?_eq := (hrepresents.get?_eq 0).trans List.head?_eq_getElem?.symm
  back?_eq := by
    rw [back?, hrepresents.length_eq, List.getLast?_eq_getElem?, hrepresents.get?_eq]
    split
    next hempty => rw [List.eq_nil_of_length_eq_zero hempty, List.getElem?_nil]
    next => rfl
  contains_eq := fun value => by rw [contains, hrepresents.toList_eq]
  toList_eq := hrepresents.toList_eq
  calls_walk := hrepresents.calls_walk

/-- Two deques are equal when their sequences are, wherever their heads stand. -/
theorem Represents.beq_eq {other : Deque α} {otherItems : List α}
    (hrepresents : deque.Represents items) (hother : other.Represents otherItems) :
    (deque == other) = (items == otherItems) := by
  change (deque.length == other.length && deque.toList == other.toList) = _
  rw [hrepresents.length_eq, hother.length_eq, hrepresents.toList_eq, hother.toList_eq]
  cases hequal : items == otherItems with
  | false => exact Bool.and_false _
  | true => rw [List.length_eq_of_beq hequal, beq_self_eq_true, Bool.true_and]

/-! ## Runs -/

omit [BEq α] in
theorem Represents.run (hrepresents : deque.Represents items) (calls : List (DequeCall α)) :
    (Calls.run Deque.perform deque calls).1 =
        (Calls.run DequeCall.onSequence items calls).1 ∧
      (Calls.run Deque.perform deque calls).2.Represents
        (Calls.run DequeCall.onSequence items calls).2 :=
  Calls.run_agrees_of_related (fun _ _ call hrelated => hrelated.perform call) calls hrepresents

/-- A deque, empty or made of given elements, answers any calls as a plain sequence does, holds
that sequence in its ring and shows it after them, and two such deques are equal when their
sequences are. -/
theorem Initial.run_holds_sequence (hinitial : Initial deque items)
    (calls : List (DequeCall α)) :
    (Calls.run perform deque calls).1 = (Calls.run DequeCall.onSequence items calls).1 ∧
      (Calls.run perform deque calls).2.Agrees (Calls.run DequeCall.onSequence items calls).2 ∧
      ∀ {other : Deque α} {otherItems : List α}, Initial other otherItems →
        ∀ otherCalls,
          ((Calls.run perform deque calls).2 == (Calls.run perform other otherCalls).2) =
            ((Calls.run DequeCall.onSequence items calls).2 ==
              (Calls.run DequeCall.onSequence otherItems otherCalls).2) := by
  obtain ⟨hanswers, hrepresents⟩ := hinitial.represents.run calls
  refine ⟨hanswers, hrepresents.agrees, ?_⟩
  intro other otherItems hother otherCalls
  exact hrepresents.beq_eq (hother.represents.run otherCalls).2

/-- Calls on a ring of two slots in which the head goes around the end in both directions, a split
ring is doubled, and slots are used again after it was cleared. -/
def wrappingCalls : List (DequeCall Element) :=
  [.pushBack (.tagged 1 1), .pushFront (.tagged 2 2), .popBack, .pushFront (.tagged 3 3),
    .pushBack (.tagged 4 4), .popFront, .modify 1 fun _ => .tagged 5 5, .modify 2 id, .clear,
    .pushFront (.tagged 6 6), .extend [.tagged 7 7, .tagged 8 8], .popFront]

theorem run_holds_sequence_wrappingCalls :
    Initial (withCapacity 2 : Deque Element) [] ∧
      (Calls.run perform (withCapacity 2) wrappingCalls).1 =
        [.done, .done, .met (some (.tagged 1 1)), .done, .done, .met (some (.tagged 3 3)),
          .met (some (.tagged 4 4)), .met none, .done, .done, .done,
          .met (some (.tagged 6 6))] ∧
      (Calls.run perform (withCapacity 2) wrappingCalls).2.Agrees
        [.tagged 7 7, .tagged 8 8] ∧
      ((Calls.run perform (withCapacity 2) wrappingCalls).2 ==
        (Calls.run perform (ofList [.tagged 7 1]).state [.pushBack (.tagged 8 1)]).2) =
          true := by
  have hinitial : Initial (withCapacity 2 : Deque Element) [] := .withCapacity 2
  obtain ⟨hanswers, hagrees, hequal⟩ := hinitial.run_holds_sequence wrappingCalls
  refine ⟨hinitial, ?_, ?_, ?_⟩
  · rw [hanswers]
    cbv
  · exact hagrees
  · rw [hequal (Initial.ofList [.tagged 7 1])]
    cbv

end Deque

end Collections
