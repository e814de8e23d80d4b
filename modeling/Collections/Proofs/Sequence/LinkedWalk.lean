import Mathlib
import Collections.Proofs.Cursor
import Collections.Proofs.Sequence.Arena

/-!
# Walks over a linked list

A walk along the links meets the elements of a list in order from either end, and it
ends because the slots in use form a chain that never comes back to a slot.
-/

namespace Collections

universe u

namespace LinkedList

variable {α : Type u} {list : LinkedList α}

/-! ## Stretches of a list -/

/-- The values stand in these slots, which lead to each other in this order, the first one back to
`before` and the last one on to `after`. -/
structure Stretch (list : LinkedList α) (before : Option Nat) (placed : List (Nat × α))
    (after : Option Nat) : Prop where
  linked : Recency.Linked list.order.links before (placed.map Prod.fst) after
  stored : ∀ slot value, (slot, value) ∈ placed → list.valueAt? (some slot) = some value

variable {before after : Option Nat} {placed : List (Nat × α)} {slot : Nat} {value : α}

theorem Layout.stretch {free : List Nat} (hlayout : list.Layout placed free) :
    list.Stretch none placed none :=
  ⟨hlayout.order.linked, hlayout.stored⟩

/-- The first slot leads to the rest. -/
theorem Stretch.first (hstretch : list.Stretch before ((slot, value) :: placed) after) :
    list.valueAt? (some slot) = some value ∧
      list.nextOf slot = (placed.map Prod.fst).head?.or after ∧
        list.Stretch (some slot) placed after := by
  have hlinked := hstretch.linked
  rw [List.map_cons] at hlinked
  refine ⟨hstretch.stored slot value List.mem_cons_self, ?_, hlinked.2, ?_⟩
  · rw [← nextOf_order, Recency.nextOf, hlinked.1, Option.bind_some]
  · exact fun other stored hmem => hstretch.stored other stored (List.mem_cons_of_mem _ hmem)

/-- The last slot leads back to the rest. -/
theorem Stretch.last (hstretch : list.Stretch before (placed ++ [(slot, value)]) after) :
    list.valueAt? (some slot) = some value ∧
      list.previousOf slot = (placed.map Prod.fst).getLast?.or before ∧
        list.Stretch before placed (some slot) := by
  have hlinked := hstretch.linked
  rw [List.map_append, List.map_singleton, Recency.linked_cons_middle] at hlinked
  refine ⟨hstretch.stored slot value (by simp), ?_, hlinked.1, ?_⟩
  · rw [← previousOf_order, Recency.previousOf, hlinked.2.1, Option.bind_some]
  · exact fun other stored hmem => hstretch.stored other stored (List.mem_append_left _ hmem)

theorem Stretch.valuesFrom_eq (hstretch : list.Stretch before placed after) :
    list.valuesFrom placed.length ((placed.map Prod.fst).head?.or after) =
      placed.map Prod.snd := by
  induction placed generalizing before with
  | nil => rfl
  | cons entry rest ih =>
      obtain ⟨slot, value⟩ := entry
      obtain ⟨hvalue, hnext, hrest⟩ := hstretch.first
      rw [List.length_cons, List.map_cons, List.head?_cons, Option.some_or, valuesFrom, hvalue,
        hnext, ih hrest]
      rfl

theorem Stretch.valuesBackFrom_eq (hstretch : list.Stretch before placed after) :
    list.valuesBackFrom placed.length ((placed.map Prod.fst).getLast?.or before) =
      (placed.map Prod.snd).reverse := by
  -- The walk starts at the last slot, so the induction takes elements off the end.
  induction placed using List.reverseRecOn generalizing after with
  | nil => rfl
  | append_singleton rest entry ih =>
      obtain ⟨slot, value⟩ := entry
      obtain ⟨hvalue, hprevious, hrest⟩ := hstretch.last
      rw [List.length_append, List.length_singleton, List.map_append, List.map_singleton,
        List.getLast?_concat, Option.some_or, valuesBackFrom, hvalue, hprevious, ih hrest,
        List.map_append, List.reverse_append]
      rfl

theorem Layout.toList_eq {free : List Nat} (hlayout : list.Layout placed free) :
    list.toList = placed.map Prod.snd := by
  have hhead : list.head = (placed.map Prod.fst).head? := hlayout.order.head_eq
  rw [toList, hlayout.length_eq, hhead, ← hlayout.stretch.valuesFrom_eq, Option.or_none]

theorem Layout.toReversedList_eq {free : List Nat} (hlayout : list.Layout placed free) :
    list.toReversedList = (placed.map Prod.snd).reverse := by
  have htail : list.tail = (placed.map Prod.fst).getLast? := hlayout.order.tail_eq
  rw [toReversedList, hlayout.length_eq, htail, ← hlayout.stretch.valuesBackFrom_eq,
    Option.or_none]

/-! ## Searches -/

section Searches

variable [BEq α]

theorem Stretch.findFrom?_eq (hstretch : list.Stretch before placed after) (value : α) :
    list.findFrom? value placed.length ((placed.map Prod.fst).head?.or after) =
      (placed.find? (·.2 == value)).map Prod.fst := by
  induction placed generalizing before with
  | nil => rfl
  | cons entry rest ih =>
      obtain ⟨slot, resident⟩ := entry
      obtain ⟨hresident, hnext, hrest⟩ := hstretch.first
      rw [List.length_cons, List.map_cons, List.head?_cons, Option.some_or, findFrom?, hresident,
        hnext, ih hrest, Option.any_some]
      split
      next hmatch => simp [hmatch]
      next hother => simp [hother]

theorem Layout.findFrom?_eq {free : List Nat} (hlayout : list.Layout placed free) (value : α) :
    list.findFrom? value list.length list.head =
      (placed.find? (·.2 == value)).map Prod.fst := by
  have hhead : list.head = (placed.map Prod.fst).head? := hlayout.order.head_eq
  rw [hlayout.length_eq, hhead, ← hlayout.stretch.findFrom?_eq value, Option.or_none]

/-- A search that follows the links for as long as they lead on, and the slot it ends with. -/
inductive Search (list : LinkedList α) (value : α) : Option Nat → Option Nat → Prop
  | exhausted : Search list value none none
  | found {slot : Nat} (hmatch : (list.valueAt? (some slot)).any (· == value) = true) :
      Search list value (some slot) (some slot)
  | passed {slot : Nat} {result : Option Nat}
      (hother : (list.valueAt? (some slot)).any (· == value) = false)
      (hrest : Search list value (list.nextOf slot) result) :
      Search list value (some slot) result

/-- A search comes to an end without a bound on its steps. -/
theorem Stretch.search (hstretch : list.Stretch before placed none) (value : α) :
    list.Search value (placed.map Prod.fst).head?
      ((placed.find? (·.2 == value)).map Prod.fst) := by
  induction placed generalizing before with
  | nil => exact .exhausted
  | cons entry rest ih =>
      obtain ⟨slot, resident⟩ := entry
      obtain ⟨hresident, hnext, hrest⟩ := hstretch.first
      rw [Option.or_none] at hnext
      rw [List.map_cons, List.head?_cons, List.find?_cons]
      cases hmatch : resident == value with
      | true => exact .found (by rw [hresident, Option.any_some, hmatch])
      | false =>
          refine .passed (by rw [hresident, Option.any_some, hmatch]) ?_
          rw [hnext]
          exact ih hrest

theorem Layout.search {free : List Nat} (hlayout : list.Layout placed free) (value : α) :
    list.Search value list.head (list.findFrom? value list.length list.head) := by
  have hhead : list.head = (placed.map Prod.fst).head? := hlayout.order.head_eq
  rw [hlayout.findFrom?_eq, hhead]
  exact hlayout.stretch.search value

end Searches

/-! ## Calls from both ends -/

/-- The walk over a stretch of a list. -/
def walkOver (list : LinkedList α) (before : Option Nat) (placed : List (Nat × α))
    (after : Option Nat) : Walk α :=
  ⟨list, (placed.map Prod.fst).head?.or after, (placed.map Prod.fst).getLast?.or before,
    placed.length⟩

/-- A walk has these elements of a list before it. -/
def Shows (list : LinkedList α) (walk : Walk α) (items : List α) : Prop :=
  ∃ before placed after, walk = list.walkOver before placed after ∧
    items = placed.map Prod.snd ∧ list.Stretch before placed after

theorem Stretch.next_walkOver (hstretch : list.Stretch before ((slot, value) :: placed) after) :
    (list.walkOver before ((slot, value) :: placed) after).next =
      (some value, list.walkOver (some slot) placed after) := by
  obtain ⟨hvalue, hnext, -⟩ := hstretch.first
  rw [walkOver, List.map_cons, List.head?_cons, Option.some_or, List.length_cons, Walk.next]
  dsimp only
  rw [hvalue, hnext, walkOver, List.getLast?_cons, Option.or_some]
  cases (placed.map Prod.fst).getLast? <;> rfl

theorem Stretch.nextBack_walkOver
    (hstretch : list.Stretch before (placed ++ [(slot, value)]) after) :
    (list.walkOver before (placed ++ [(slot, value)]) after).nextBack =
      (some value, list.walkOver before placed (some slot)) := by
  obtain ⟨hvalue, hprevious, -⟩ := hstretch.last
  rw [walkOver, List.map_append, List.map_singleton, List.getLast?_concat, Option.some_or,
    List.length_append, List.length_singleton, Walk.nextBack]
  dsimp only
  rw [hvalue, hprevious, walkOver, List.head?_append, List.head?_singleton, Option.or_assoc,
    Option.some_or]

theorem take_front (walk : Walk α) : DoubleEndedCursor.take .front walk = walk.next := rfl

theorem take_back (walk : Walk α) : DoubleEndedCursor.take .back walk = walk.nextBack := rfl

theorem yields_shows (list : LinkedList α) : DoubleEndedCursor.Yields list.Shows where
  take_eq := by
    rintro side walk items ⟨before, placed, after, rfl, rfl, hstretch⟩
    cases side with
    | front =>
        cases placed with
        | nil => exact ⟨rfl, before, [], after, rfl, rfl, hstretch⟩
        | cons entry rest =>
            rw [take_front, hstretch.next_walkOver]
            exact ⟨rfl, some entry.1, rest, after, rfl, rfl, hstretch.first.2.2⟩
    | back =>
        cases placed using List.reverseRecOn with
        | nil => exact ⟨rfl, before, [], after, rfl, rfl, hstretch⟩
        | append_singleton rest entry =>
            rw [take_back, hstretch.nextBack_walkOver, DoubleEndedCursor.takeEnd, List.map_append,
              List.map_singleton, List.getLast?_concat, List.dropLast_concat]
            exact ⟨rfl, before, rest, some entry.1, rfl, rfl, hstretch.last.2.2⟩
  remaining_eq := by
    rintro walk items ⟨before, placed, after, rfl, rfl, -⟩
    exact (List.length_map _).symm

theorem Layout.shows_walk {free : List Nat} (hlayout : list.Layout placed free) :
    list.Shows list.walk (placed.map Prod.snd) := by
  refine ⟨none, placed, none, ?_, rfl, hlayout.stretch⟩
  have hhead : list.head = (placed.map Prod.fst).head? := hlayout.order.head_eq
  have htail : list.tail = (placed.map Prod.fst).getLast? := hlayout.order.tail_eq
  rw [walk, walkOver, hhead, htail, hlayout.length_eq, Option.or_none, Option.or_none]

/-- Calls from either end, in any pattern, take the elements from that end of what is left. -/
theorem Layout.calls_walk {free : List Nat} (hlayout : list.Layout placed free)
    (pattern : List SequenceEnd) :
    DoubleEndedCursor.calls pattern list.walk =
      DoubleEndedCursor.visits (placed.map Prod.snd) pattern :=
  (yields_shows list).calls_eq_visits pattern hlayout.shows_walk

end LinkedList

end Collections
