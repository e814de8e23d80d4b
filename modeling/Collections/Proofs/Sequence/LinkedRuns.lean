import Mathlib
import Collections.Element
import Collections.Proofs.Run
import Collections.Proofs.Sequence.LinkedWalk

/-!
# Runs of a linked list

A linked list answers every call as a plain sequence does: the slots that its elements
stand in, and in which order they were freed and taken again, never show.
-/

namespace Collections

universe u

/-- A call that can change a linked list. -/
inductive LinkedCall (α : Type u) where
  | pushFront (value : α)
  | pushBack (value : α)
  | popFront
  | popBack
  | remove (value : α)
  | replaceFront (value : α)
  | replaceBack (value : α)
  | extend (values : List α)
  | clear

/-- What a linked list answers to a call. -/
inductive LinkedAnswer (α : Type u) where
  | done
  | taken (item : Option α)
  | told (found : Bool)

variable {α : Type u}

/-- What a plain sequence answers to a call, and the sequence after it. -/
def LinkedCall.onSequence [BEq α] (items : List α) : LinkedCall α → LinkedAnswer α × List α
  | .pushFront value => (.done, value :: items)
  | .pushBack value => (.done, items ++ [value])
  | .popFront => (.taken items.head?, items.tail)
  | .popBack => (.taken items.getLast?, items.dropLast)
  | .remove value => (.told (items.any (· == value)), items.eraseP (· == value))
  | .replaceFront value => (.told !items.isEmpty, items.set 0 value)
  | .replaceBack value => (.told !items.isEmpty, items.set (items.length - 1) value)
  | .extend values => (.done, items ++ values)
  | .clear => (.done, [])

namespace LinkedList

def perform [BEq α] (list : LinkedList α) : LinkedCall α → LinkedAnswer α × LinkedList α
  | .pushFront value => (.done, list.pushFront value)
  | .pushBack value => (.done, list.pushBack value)
  | .popFront =>
    let result := list.popFront
    (.taken result.1, result.2)
  | .popBack =>
    let result := list.popBack
    (.taken result.1, result.2)
  | .remove value =>
    let result := list.remove value
    (.told result.1, result.2)
  | .replaceFront value =>
    let result := list.replaceFront value
    (.told result.1, result.2)
  | .replaceBack value =>
    let result := list.replaceBack value
    (.told result.1, result.2)
  | .extend values => (.done, list.extend values)
  | .clear => (.done, list.clear)

/-- A new list and the sequence that it is made of. -/
inductive Initial : LinkedList α → List α → Prop
  | empty : Initial empty []
  | ofList (items : List α) : Initial (ofList items) items

/-- A list holds the elements of a sequence, in some slots. -/
def Represents (list : LinkedList α) (items : List α) : Prop :=
  ∃ placed free, list.Layout placed free ∧ items = placed.map Prod.snd

theorem represents_empty : (empty : LinkedList α).Represents [] :=
  ⟨[], [], layout_empty, rfl⟩

variable {list : LinkedList α} {items : List α}

theorem Represents.length_eq (hrepresents : list.Represents items) :
    list.length = items.length := by
  obtain ⟨placed, free, hlayout, rfl⟩ := hrepresents
  rw [hlayout.length_eq, List.length_map]

/-! ## What one call does -/

theorem Represents.pushFront (hrepresents : list.Represents items) (value : α) :
    (list.pushFront value).Represents (value :: items) := by
  obtain ⟨placed, free, hlayout, rfl⟩ := hrepresents
  exact ⟨_, _, hlayout.pushFront value, rfl⟩

theorem Represents.pushBack (hrepresents : list.Represents items) (value : α) :
    (list.pushBack value).Represents (items ++ [value]) := by
  obtain ⟨placed, free, hlayout, rfl⟩ := hrepresents
  exact ⟨_, _, hlayout.pushBack value, by rw [List.map_append, List.map_singleton]⟩

theorem Represents.extend (values : List α) :
    ∀ {list : LinkedList α} {items : List α}, list.Represents items →
      (list.extend values).Represents (items ++ values) := by
  induction values with
  | nil => exact fun hrepresents => (List.append_nil _).symm ▸ hrepresents
  | cons value values ih =>
      intro list items hrepresents
      rw [List.append_cons]
      exact ih (hrepresents.pushBack value)

theorem Represents.popFront (hrepresents : list.Represents items) :
    list.popFront.1 = items.head? ∧ list.popFront.2.Represents items.tail := by
  obtain ⟨placed, free, hlayout, rfl⟩ := hrepresents
  have hhead : list.head = (placed.map Prod.fst).head? := hlayout.order.head_eq
  rw [LinkedList.popFront, hhead]
  cases placed with
  | nil => exact ⟨rfl, [], free, hlayout, rfl⟩
  | cons entry rest =>
      rw [← List.nil_append (entry :: rest)] at hlayout
      obtain ⟨hvalue, hrest⟩ := hlayout.release
      exact ⟨hvalue, rest, entry.1 :: free, hrest, rfl⟩

theorem Represents.popBack (hrepresents : list.Represents items) :
    list.popBack.1 = items.getLast? ∧ list.popBack.2.Represents items.dropLast := by
  obtain ⟨placed, free, hlayout, rfl⟩ := hrepresents
  have htail : list.tail = (placed.map Prod.fst).getLast? := hlayout.order.tail_eq
  rw [LinkedList.popBack, htail]
  cases placed using List.reverseRecOn with
  | nil => exact ⟨rfl, [], free, hlayout, rfl⟩
  | append_singleton rest entry =>
      rw [List.map_append, List.map_append, List.map_singleton, List.map_singleton,
        List.getLast?_concat, List.getLast?_concat, List.dropLast_concat]
      obtain ⟨hvalue, hrest⟩ := hlayout.release
      rw [List.append_nil] at hrest
      exact ⟨hvalue, rest, entry.1 :: free, hrest, rfl⟩

theorem Represents.replaceFront (hrepresents : list.Represents items) (value : α) :
    (list.replaceFront value).1 = !items.isEmpty ∧
      (list.replaceFront value).2.Represents (items.set 0 value) := by
  obtain ⟨placed, free, hlayout, rfl⟩ := hrepresents
  have hhead : list.head = (placed.map Prod.fst).head? := hlayout.order.head_eq
  rw [LinkedList.replaceFront, hhead]
  cases placed with
  | nil => exact ⟨rfl, [], free, hlayout, rfl⟩
  | cons entry rest =>
      rw [← List.nil_append (entry :: rest)] at hlayout
      rw [List.map_cons, List.head?_cons, hlayout.replaceAt value]
      exact ⟨rfl, _, free, hlayout.overwrite value, rfl⟩

theorem Represents.replaceBack (hrepresents : list.Represents items) (value : α) :
    (list.replaceBack value).1 = !items.isEmpty ∧
      (list.replaceBack value).2.Represents (items.set (items.length - 1) value) := by
  obtain ⟨placed, free, hlayout, rfl⟩ := hrepresents
  have htail : list.tail = (placed.map Prod.fst).getLast? := hlayout.order.tail_eq
  rw [LinkedList.replaceBack, htail]
  cases placed using List.reverseRecOn with
  | nil => exact ⟨rfl, [], free, hlayout, rfl⟩
  | append_singleton rest entry =>
      rw [List.map_append, List.map_append, List.map_singleton, List.map_singleton,
        List.getLast?_concat, hlayout.replaceAt value]
      refine ⟨by simp, _, free, hlayout.overwrite value, ?_⟩
      simp

theorem Represents.remove [BEq α] (hrepresents : list.Represents items) (value : α) :
    (list.remove value).1 = items.any (· == value) ∧
      (list.remove value).2.Represents (items.eraseP (· == value)) := by
  obtain ⟨placed, free, hlayout, rfl⟩ := hrepresents
  rw [LinkedList.remove, hlayout.findFrom?_eq]
  cases hfound : placed.find? (·.2 == value) with
  | none =>
      have habsent : ∀ item ∈ placed.map Prod.snd, ¬(item == value) = true := by
        intro item hitem
        obtain ⟨entry, hentry, rfl⟩ := List.mem_map.mp hitem
        exact List.find?_eq_none.mp hfound entry hentry
      refine ⟨(List.any_eq_false.mpr habsent).symm, placed, free, hlayout, ?_⟩
      exact List.eraseP_of_forall_not habsent
  | some entry =>
      -- The first match cuts the sequence in two, and nothing in front of it matches.
      obtain ⟨hmatch, front, back, rfl, hfront⟩ := List.find?_eq_some_iff_append.mp hfound
      have hothers : ∀ item ∈ front.map Prod.snd, ¬(item == value) = true := by
        intro item hitem
        obtain ⟨other, hother, rfl⟩ := List.mem_map.mp hitem
        simpa using hfront other hother
      obtain ⟨-, hrest⟩ := hlayout.release
      refine ⟨?_, front ++ back, entry.1 :: free, hrest, ?_⟩
      · simp [hmatch]
      · have herase : (entry.2 :: back.map Prod.snd).eraseP (· == value) = back.map Prod.snd :=
          List.eraseP_cons_of_pos hmatch
        rw [List.map_append, List.map_cons, List.eraseP_append_right _ hothers, herase,
          List.map_append]

theorem Initial.represents (hinitial : Initial list items) : list.Represents items := by
  cases hinitial with
  | empty => exact represents_empty
  | ofList items => exact represents_empty.extend items

section Runs

variable [BEq α]

/-- A call is answered as by the sequence, and the list holds the sequence after it. -/
theorem Represents.perform (hrepresents : list.Represents items) (call : LinkedCall α) :
    (list.perform call).1 = (call.onSequence items).1 ∧
      (list.perform call).2.Represents (call.onSequence items).2 := by
  cases call with
  | pushFront value => exact ⟨rfl, hrepresents.pushFront value⟩
  | pushBack value => exact ⟨rfl, hrepresents.pushBack value⟩
  | popFront =>
      obtain ⟨hanswer, hrest⟩ := hrepresents.popFront
      exact ⟨congrArg LinkedAnswer.taken hanswer, hrest⟩
  | popBack =>
      obtain ⟨hanswer, hrest⟩ := hrepresents.popBack
      exact ⟨congrArg LinkedAnswer.taken hanswer, hrest⟩
  | remove value =>
      obtain ⟨hanswer, hrest⟩ := hrepresents.remove value
      exact ⟨congrArg LinkedAnswer.told hanswer, hrest⟩
  | replaceFront value =>
      obtain ⟨hanswer, hrest⟩ := hrepresents.replaceFront value
      exact ⟨congrArg LinkedAnswer.told hanswer, hrest⟩
  | replaceBack value =>
      obtain ⟨hanswer, hrest⟩ := hrepresents.replaceBack value
      exact ⟨congrArg LinkedAnswer.told hanswer, hrest⟩
  | extend values => exact ⟨rfl, hrepresents.extend values⟩
  | clear => exact ⟨rfl, represents_empty⟩

/-! ## What a list shows -/

/-- A list shows a sequence: its length, its ends and its elements, forwards and backwards. -/
structure Agrees (list : LinkedList α) (items : List α) : Prop where
  length_eq : list.length = items.length
  isEmpty_eq : list.isEmpty = items.isEmpty
  front_eq : list.front? = items.head?
  back_eq : list.back? = items.getLast?
  contains_eq : ∀ value, list.contains value = items.any (· == value)
  toList_eq : list.toList = items
  toReversedList_eq : list.toReversedList = items.reverse
  calls_forward : ∀ count, Cursor.calls count list.walk = Cursor.visits items count
  calls_backward : ∀ count,
    DoubleEndedCursor.calls (List.replicate count .back) list.walk =
      Cursor.visits items.reverse count
  /-- The search of a removal comes to an end, though it follows the links without a bound. -/
  search : ∀ value, list.Search value list.head (list.findFrom? value list.length list.head)

theorem Represents.agrees (hrepresents : list.Represents items) : list.Agrees items := by
  have hlength := hrepresents.length_eq
  obtain ⟨placed, free, hlayout, rfl⟩ := hrepresents
  exact {
    length_eq := hlength
    isEmpty_eq := by
      rw [LinkedList.isEmpty, hlength]
      cases placed <;> rfl
    front_eq := hlayout.front?_eq
    back_eq := hlayout.back?_eq
    contains_eq := fun value => by rw [LinkedList.contains, hlayout.toList_eq]
    toList_eq := hlayout.toList_eq
    toReversedList_eq := hlayout.toReversedList_eq
    calls_forward := by
      intro count
      rw [← DoubleEndedCursor.calls_replicate_front, hlayout.calls_walk,
        DoubleEndedCursor.visits_replicate_front]
    calls_backward := by
      intro count
      rw [hlayout.calls_walk, DoubleEndedCursor.visits_replicate_back]
    search := hlayout.search }

/-- Two lists are equal when their sequences are, whatever slots they stand in. -/
theorem Represents.beq_eq {other : LinkedList α} {otherItems : List α}
    (hrepresents : list.Represents items) (hother : other.Represents otherItems) :
    (list == other) = (items == otherItems) := by
  have hshown := hrepresents.agrees
  have hotherShown := hother.agrees
  change (list.length == other.length && list.toList == other.toList) = _
  rw [hshown.length_eq, hotherShown.length_eq, hshown.toList_eq, hotherShown.toList_eq]
  cases hequal : items == otherItems with
  | false => exact Bool.and_false _
  | true => rw [List.length_eq_of_beq hequal, beq_self_eq_true, Bool.true_and]

/-! ## Runs -/

theorem Represents.run (hrepresents : list.Represents items) (calls : List (LinkedCall α)) :
    (Calls.run LinkedList.perform list calls).1 =
        (Calls.run LinkedCall.onSequence items calls).1 ∧
      (Calls.run LinkedList.perform list calls).2.Represents
        (Calls.run LinkedCall.onSequence items calls).2 :=
  Calls.run_agrees_of_related (fun _ _ call hrelated => hrelated.perform call) calls hrepresents

/-- A linked list, empty or made of given elements, answers any calls as a plain sequence does and
shows that sequence after them, and two such lists are equal when their sequences are. -/
theorem Initial.run_shows_sequence (hinitial : Initial list items) (calls : List (LinkedCall α)) :
    (Calls.run perform list calls).1 = (Calls.run LinkedCall.onSequence items calls).1 ∧
      (Calls.run perform list calls).2.Agrees (Calls.run LinkedCall.onSequence items calls).2 ∧
      ∀ {other : LinkedList α} {otherItems : List α}, Initial other otherItems →
        ∀ otherCalls,
          ((Calls.run perform list calls).2 == (Calls.run perform other otherCalls).2) =
            ((Calls.run LinkedCall.onSequence items calls).2 ==
              (Calls.run LinkedCall.onSequence otherItems otherCalls).2) := by
  obtain ⟨hanswers, hrepresents⟩ := hinitial.represents.run calls
  refine ⟨hanswers, hrepresents.agrees, ?_⟩
  intro other otherItems hother otherCalls
  exact hrepresents.beq_eq (hother.represents.run otherCalls).2

/-- Calls that take elements out of the middle and off both ends, and slots that are used again. -/
def recyclingCalls : List (LinkedCall Element) :=
  [.remove (.tagged 2 9), .remove (.tagged 1 9), .pushFront (.tagged 5 5),
    .pushBack (.tagged 6 6), .remove (.tagged 6 9), .remove (.tagged 8 9),
    .replaceBack (.tagged 7 7), .popFront, .extend [.tagged 8 8, .tagged 9 9], .popBack]

theorem run_shows_sequence_recyclingCalls :
    ∃ list : LinkedList Element,
      Initial list [.tagged 1 1, .tagged 2 2, .tagged 3 3, .tagged 1 4] ∧
      (Calls.run perform list recyclingCalls).1 =
        [.told true, .told true, .done, .done, .told true, .told false, .told true,
          .taken (some (.tagged 5 5)), .done, .taken (some (.tagged 9 9))] ∧
      (Calls.run perform list recyclingCalls).2.Agrees
        [.tagged 3 3, .tagged 7 7, .tagged 8 8] ∧
      ((Calls.run perform list recyclingCalls).2 ==
        (Calls.run perform empty [.extend [.tagged 3 1, .tagged 7 1, .tagged 8 1]]).2) = true := by
  have hinitial := Initial.ofList
    [Element.tagged 1 1, Element.tagged 2 2, Element.tagged 3 3, Element.tagged 1 4]
  obtain ⟨hanswers, hagrees, hequal⟩ := hinitial.run_shows_sequence recyclingCalls
  refine ⟨_, hinitial, ?_, ?_, ?_⟩
  · rw [hanswers]
    cbv
  · exact hagrees
  · rw [hequal Initial.empty]
    cbv

end Runs

end LinkedList

end Collections
