import Mathlib
import Collections.Proofs.Sequence.ReferredSlots
import Collections.Proofs.Trace

/-!
# The slots of a linked list

Three chains run through the array of a linked list: forwards and backwards through the slots
of its elements, and through the free slots.  In every list that calls lead to, the chains
visit all slots and none twice, and no link leads out of the array.  A slot is made only when
none is free, so there are as many slots as there ever were elements at one time since the
list was made or last cleared.
-/

namespace Collections

universe u

namespace LinkedList

variable {α : Type u}

/-! ## The partition of the slots -/

/-- The slots of a list are those in use, which its elements stand in, in this order, and the
free ones, and its links visit both. -/
structure Partitioned (list : LinkedList α) (used free : List Nat) : Prop where
  /-- The links lead from the head to the slots in use, one after the other, and then to none. -/
  forward : ∀ steps, Recency.follow list.nextOf list.head steps = used[steps]?
  length_used : used.length = list.length
  last_eq_tail : used.getLast? = list.tail
  /-- The links back from the tail lead to the same slots in the opposite order. -/
  backward : ∀ steps, Recency.follow list.previousOf list.tail steps = used.reverse[steps]?
  filled : ∀ slot ∈ used, (list.valueAt? (some slot)).isSome
  freeChain : ∀ steps, Recency.follow list.nextOf list.free steps = free[steps]?
  vacant : ∀ slot ∈ free, list.valueAt? (some slot) = none
  /-- No slot is visited twice. -/
  nodup : (used ++ free).Nodup
  /-- Every slot of the array is visited, and nothing else. -/
  visited_iff : ∀ slot, slot ∈ used ++ free ↔ slot < list.nodes.size
  head_eq_none_iff : list.head = none ↔ list.length = 0
  tail_eq_none_iff : list.tail = none ↔ list.length = 0
  in_range : ∀ slot, list.Refers slot → slot < list.nodes.size

section Layout

variable {list : LinkedList α} {placed : List (Nat × α)} {free : List Nat}

/-- A slot of the free chain leads to the next one. -/
theorem Vacant.middle {nodes : Array (Node α)} {front back : List Nat} {slot : Nat}
    (hvacant : Vacant nodes (front ++ slot :: back)) :
    nodes[slot]? = some ⟨none, none, back.head?⟩ := by
  induction front with
  | nil => exact hvacant.1
  | cons other front ih => exact ih hvacant.2

theorem Layout.links_free {front back : List Nat} {slot : Nat}
    (hlayout : list.Layout placed (front ++ slot :: back)) :
    list.nextOf slot = back.head? ∧ list.previousOf slot = none := by
  rw [nextOf, previousOf, hlayout.vacant.middle]
  exact ⟨rfl, rfl⟩

theorem Layout.links_used {front back : List Nat} {slot : Nat} (hlayout : list.Layout placed free)
    (hplaced : placed.map Prod.fst = front ++ slot :: back) :
    list.nextOf slot = back.head? ∧ list.previousOf slot = front.getLast? := by
  have horder := hlayout.order
  rw [hplaced] at horder
  rw [← nextOf_order, ← previousOf_order]
  exact horder.neighbours.symm

/-- A slot in use leads to slots in use, and a free slot to a free one, if to any. -/
theorem Layout.mem_slots_of_link (hlayout : list.Layout placed free) {origin slot : Nat}
    (horigin : origin < list.nodes.size)
    (hslot : list.nextOf origin = some slot ∨ list.previousOf origin = some slot) :
    slot ∈ placed.map Prod.fst ++ free := by
  rw [List.mem_append]
  rcases List.mem_append.mp (hlayout.mem_slots_iff.mpr horigin) with hused | hfree
  · left
    obtain ⟨front, back, hplaced⟩ := List.append_of_mem hused
    obtain ⟨hnext, hprevious⟩ := hlayout.links_used hplaced
    rw [hnext, hprevious] at hslot
    rw [hplaced]
    rcases hslot with hafter | hbefore
    · exact List.mem_append_right _ (List.mem_cons_of_mem _ (List.mem_of_head? hafter))
    · exact List.mem_append_left _ (List.mem_of_getLast? hbefore)
  · right
    obtain ⟨front, back, rfl⟩ := List.append_of_mem hfree
    obtain ⟨hnext, hprevious⟩ := hlayout.links_free
    rw [hnext, hprevious] at hslot
    rcases hslot with hafter | hbefore
    · exact List.mem_append_right _ (List.mem_cons_of_mem _ (List.mem_of_head? hafter))
    · contradiction

theorem Layout.lt_size_of_refers (hlayout : list.Layout placed free) {slot : Nat}
    (hrefers : list.Refers slot) : slot < list.nodes.size := by
  have horigin : ∀ {origin : Nat} {link : Node α → Option Nat},
      list.nodes[origin]?.bind link = some slot → origin < list.nodes.size := by
    intro origin link hlink
    obtain ⟨node, hnode, -⟩ := Option.bind_eq_some_iff.mp hlink
    exact (Array.getElem?_eq_some_iff.mp hnode).1
  apply hlayout.mem_slots_iff.mp
  cases hrefers with
  | head hslot =>
      have hhead : list.head = (placed.map Prod.fst).head? := hlayout.order.head_eq
      exact List.mem_append_left _ (List.mem_of_head? (hhead.symm.trans hslot))
  | tail hslot =>
      have htail : list.tail = (placed.map Prod.fst).getLast? := hlayout.order.tail_eq
      exact List.mem_append_left _ (List.mem_of_getLast? (htail.symm.trans hslot))
  | free hslot =>
      exact List.mem_append_right _ (List.mem_of_head? (hlayout.free_eq.symm.trans hslot))
  | next hslot => exact hlayout.mem_slots_of_link (horigin hslot) (Or.inl hslot)
  | previous hslot => exact hlayout.mem_slots_of_link (horigin hslot) (Or.inr hslot)

theorem Layout.partitioned (hlayout : list.Layout placed free) :
    list.Partitioned (placed.map Prod.fst) free := by
  have hnext : list.order.nextOf = list.nextOf := funext list.nextOf_order
  have hprevious : list.order.previousOf = list.previousOf := funext list.previousOf_order
  have hhead : list.head = (placed.map Prod.fst).head? := hlayout.order.head_eq
  have htail : list.tail = (placed.map Prod.fst).getLast? := hlayout.order.tail_eq
  exact {
    forward := hnext ▸ hlayout.order.follow_nextOf
    length_used := hlayout.order.length_eq.symm
    last_eq_tail := htail.symm
    backward := hprevious ▸ hlayout.order.follow_previousOf
    filled := by
      intro slot hslot
      obtain ⟨entry, hentry, rfl⟩ := List.mem_map.mp hslot
      rw [hlayout.stored entry.1 entry.2 hentry]
      rfl
    freeChain := by
      intro steps
      rw [hlayout.free_eq]
      apply Recency.follow_eq_getElem?
      rintro front slot back rfl
      exact hlayout.links_free.1
    vacant := by
      intro slot hslot
      obtain ⟨front, back, rfl⟩ := List.append_of_mem hslot
      rw [valueAt?, Option.bind_some, hlayout.vacant.middle]
      rfl
    nodup := hlayout.nodup
    visited_iff := fun slot => hlayout.mem_slots_iff
    head_eq_none_iff := by
      rw [hhead, List.head?_eq_none_iff, ← List.length_eq_zero_iff, ← hlayout.order.length_eq]
      rfl
    tail_eq_none_iff := by
      rw [htail, List.getLast?_eq_none_iff, ← List.length_eq_zero_iff, ← hlayout.order.length_eq]
      rfl
    in_range := fun slot => hlayout.lt_size_of_refers }

end Layout

/-! ## The number of slots -/

section Size

variable {list : LinkedList α} {items : List α}

theorem Layout.size_eq {placed : List (Nat × α)} {free : List Nat}
    (hlayout : list.Layout placed free) : list.nodes.size = list.length + free.length := by
  have hsize := hlayout.slots_perm.length_eq
  rw [List.length_append, List.length_range, ← hlayout.order.length_eq] at hsize
  exact hsize.symm

theorem Represents.length_le_size (hrepresents : list.Represents items) :
    list.length ≤ list.nodes.size := by
  obtain ⟨placed, free, hlayout, -⟩ := hrepresents
  exact hlayout.size_eq ▸ Nat.le_add_right _ _

/-- A new element takes a free slot if there is one, so the array grows only if it was full. -/
theorem Layout.size_eq_max {placed grown : List (Nat × α)} {free : List Nat}
    {after : LinkedList α} (hlayout : list.Layout placed free)
    (hafter : after.Layout grown free.tail) (hlength : after.length = list.length + 1) :
    after.nodes.size = max list.nodes.size after.length := by
  rw [hafter.size_eq, hlayout.size_eq, hlength, List.length_tail]
  omega

theorem Represents.size_pushFront (hrepresents : list.Represents items) (value : α) :
    (list.pushFront value).nodes.size =
      max list.nodes.size (list.pushFront value).length := by
  have hlength := (hrepresents.pushFront value).length_eq
  rw [List.length_cons, ← hrepresents.length_eq] at hlength
  obtain ⟨placed, free, hlayout, -⟩ := hrepresents
  exact hlayout.size_eq_max (hlayout.pushFront value) hlength

theorem Represents.size_pushBack (hrepresents : list.Represents items) (value : α) :
    (list.pushBack value).nodes.size =
      max list.nodes.size (list.pushBack value).length := by
  have hlength := (hrepresents.pushBack value).length_eq
  rw [List.length_append, List.length_singleton, ← hrepresents.length_eq] at hlength
  obtain ⟨placed, free, hlayout, -⟩ := hrepresents
  exact hlayout.size_eq_max (hlayout.pushBack value) hlength

theorem Represents.size_extend (values : List α) :
    ∀ {list : LinkedList α} {items : List α}, list.Represents items →
      (list.extend values).nodes.size = max list.nodes.size (list.extend values).length := by
  induction values with
  | nil => exact fun hrepresents => (Nat.max_eq_left hrepresents.length_le_size).symm
  | cons value values ih =>
      intro list items hrepresents
      have hpushed := hrepresents.pushBack value
      have hgrows : (list.pushBack value).length ≤ ((list.pushBack value).extend values).length := by
        rw [hpushed.length_eq, (hpushed.extend values).length_eq]
        exact (List.sublist_append_left _ values).length_le
      calc
        ((list.pushBack value).extend values).nodes.size =
            max (list.pushBack value).nodes.size ((list.pushBack value).extend values).length :=
          ih hpushed
        _ = max (max list.nodes.size (list.pushBack value).length)
            ((list.pushBack value).extend values).length := by
          rw [hrepresents.size_pushBack]
        _ = max list.nodes.size ((list.pushBack value).extend values).length := by
          rw [Nat.max_assoc, Nat.max_eq_right hgrows]

theorem Initial.size_eq (hinitial : Initial list items) : list.nodes.size = list.length := by
  cases hinitial with
  | empty => rfl
  | ofList items =>
      rw [LinkedList.ofList, represents_empty.size_extend items]
      exact Nat.zero_max _

theorem size_popFront (list : LinkedList α) : list.popFront.2.nodes.size = list.nodes.size := by
  rw [popFront]
  split
  · exact size_release list _
  · rfl

theorem size_popBack (list : LinkedList α) : list.popBack.2.nodes.size = list.nodes.size := by
  rw [popBack]
  split
  · exact size_release list _
  · rfl

theorem size_remove [BEq α] (list : LinkedList α) (value : α) :
    (list.remove value).2.nodes.size = list.nodes.size := by
  rw [remove]
  split
  · exact size_release list _
  · rfl

theorem size_replaceAt (list : LinkedList α) (link : Option Nat) (value : α) :
    (list.replaceAt link value).2.nodes.size = list.nodes.size := by
  unfold replaceAt
  split
  · exact Array.size_modify
  · rfl

variable [BEq α]

/-- Any call but `clear` leaves as many slots as there were, or as there are elements now. -/
theorem Represents.size_perform (hrepresents : list.Represents items) (call : LinkedCall α)
    (hkept : call ≠ .clear) :
    (list.perform call).2.nodes.size =
      max list.nodes.size (list.perform call).2.length := by
  have hfits := (hrepresents.perform call).2.length_le_size
  have hsame (hsize : (list.perform call).2.nodes.size = list.nodes.size) :
      (list.perform call).2.nodes.size =
        max list.nodes.size (list.perform call).2.length := by
    rw [← hsize, Nat.max_eq_left hfits]
  cases call with
  | pushFront value => exact hrepresents.size_pushFront value
  | pushBack value => exact hrepresents.size_pushBack value
  | popFront => exact hsame list.size_popFront
  | popBack => exact hsame list.size_popBack
  | remove value => exact hsame (list.size_remove value)
  | replaceFront value => exact hsame (list.size_replaceAt list.head value)
  | replaceBack value => exact hsame (list.size_replaceAt list.tail value)
  | extend values => exact hrepresents.size_extend values
  | clear => exact absurd rfl hkept

/-! ## Runs -/

/-- The lengths of a list in the states of a run since its start or since it was last cleared. -/
def lengthsSinceClear (list : LinkedList α) (calls : List (LinkedCall α)) : Set Nat :=
  {length | ∃ earlier later, calls = earlier ++ later ∧ LinkedCall.clear ∉ later ∧
    length = (Calls.run perform list earlier).2.length}

theorem lengthsSinceClear_eq (list : LinkedList α) (calls : List (LinkedCall α)) :
    list.lengthsSinceClear calls =
      Calls.valuesSince perform length (· = .clear) list calls := by
  simp only [lengthsSinceClear, Calls.valuesSince, List.forall_mem_ne']

/-- There are as many slots as there were elements at one time, and never more since. -/
theorem Initial.size_isGreatest (hinitial : Initial list items) (calls : List (LinkedCall α)) :
    IsGreatest (list.lengthsSinceClear calls)
      (Calls.run perform list calls).2.nodes.size := by
  have hcleared : ∀ (state : LinkedList α) (call : LinkedCall α), call = .clear →
      (state.perform call).2.nodes.size = (state.perform call).2.length := by
    rintro state call rfl
    rfl
  rw [lengthsSinceClear_eq]
  exact Calls.isGreatest_valuesSince
    (fun state : LinkedList α => state.nodes.size) (fun state => ∃ held, state.Represents held)
    ⟨items, hinitial.represents⟩ hinitial.size_eq
    (fun _ call ⟨_, hrepresents⟩ => ⟨_, (hrepresents.perform call).2⟩) hcleared
    (fun _ call ⟨_, hrepresents⟩ hcall => hrepresents.size_perform call hcall) calls

/-- In every state of a linked list its links visit each slot of the array once, and there are
as many slots as the most elements since the list was made or last cleared. -/
theorem Initial.run_partitions_slots (hinitial : Initial list items)
    (calls : List (LinkedCall α)) :
    (∃ used free, (Calls.run perform list calls).2.Partitioned used free) ∧
      IsGreatest (list.lengthsSinceClear calls)
        (Calls.run perform list calls).2.nodes.size := by
  obtain ⟨placed, free, hlayout, -⟩ := (hinitial.represents.run calls).2
  exact ⟨⟨_, _, hlayout.partitioned⟩, hinitial.size_isGreatest calls⟩

/-- Calls that clear a list, free slots in the middle and at both ends, and use one of them
again. -/
def reusingCalls : List (LinkedCall Element) :=
  [.clear, .extend [.tagged 1 1, .tagged 2 2, .tagged 3 3, .tagged 4 4], .remove (.tagged 2 9),
    .popFront, .pushFront (.tagged 5 5), .popBack]

theorem run_partitions_slots_reusingCalls :
    ∃ list : LinkedList Element,
      Initial list [.text "a", .text "b", .text "c", .text "d", .text "e"] ∧
      (Calls.run perform list reusingCalls).2.nodes.size = 4 ∧
      (Calls.run perform list reusingCalls).2.free = some 3 ∧
      (Calls.run perform list reusingCalls).2.toList = [.tagged 5 5, .tagged 3 3] ∧
      (∃ used free, (Calls.run perform list reusingCalls).2.Partitioned used free) ∧
      IsGreatest (list.lengthsSinceClear reusingCalls)
        (Calls.run perform list reusingCalls).2.nodes.size := by
  have hinitial := Initial.ofList
    [Element.text "a", Element.text "b", Element.text "c", Element.text "d", Element.text "e"]
  exact ⟨_, hinitial, by cbv, by cbv, by cbv, hinitial.run_partitions_slots reusingCalls⟩

end Size

end LinkedList

end Collections
