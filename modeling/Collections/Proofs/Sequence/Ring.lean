import Mathlib
import Collections.Sequence.Deque

/-!
# Rings of slots

The slots of a ring are read from the head on, around the end of the array.  What stands at
each offset decides the whole ring, so an operation is described by the offset that it writes
and by how far it turns the head.  A deque represents a sequence if its ring holds the sequence
at the first offsets and nothing at the others.
-/

namespace Collections

universe u

namespace Deque

variable {α : Type u}

/-! ## Offsets and places -/

section Places

variable {size head : Nat}

theorem place_inj {first second : Nat} (hfirst : first < size) (hsecond : second < size) :
    (head + first) % size = (head + second) % size ↔ first = second := by
  constructor
  · intro hsame
    have hoffsets : first ≡ second [MOD size] := Nat.ModEq.add_left_cancel' head hsame
    exact hoffsets.eq_of_lt_of_lt hfirst hsecond
  · exact fun hequal => hequal ▸ rfl

/-- Every place is met once around the ring. -/
theorem exists_offset {place : Nat} (hhead : head < size) (hplace : place < size) :
    ∃ offset < size, (head + offset) % size = place := by
  refine ⟨(place + (size - head)) % size, Nat.mod_lt _ (by omega), ?_⟩
  have hround : head + (place + (size - head)) = place + size := by omega
  rw [Nat.add_mod_mod, hround, Nat.add_mod_right, Nat.mod_eq_of_lt hplace]

end Places

/-! ## What a ring holds -/

/-- From the head on, around the end, the slots hold these contents. -/
def Around (slots : Array (Option α)) (head : Nat) (contents : Nat → Option α) : Prop :=
  ∀ offset < slots.size, slots[(head + offset) % slots.size]? = some (contents offset)

section Around

variable {slots : Array (Option α)} {head : Nat} {contents : Nat → Option α}

theorem Around.congr {other : Nat → Option α} (haround : Around slots head contents)
    (hsame : ∀ offset < slots.size, contents offset = other offset) :
    Around slots head other :=
  fun offset hoffset => hsame offset hoffset ▸ haround offset hoffset

theorem Around.write (haround : Around slots head contents) {offset : Nat}
    (hoffset : offset < slots.size) (content : Option α) :
    Around (slots.setIfInBounds ((head + offset) % slots.size) content) head
      (Function.update contents offset content) := by
  intro other hother
  rw [Array.size_setIfInBounds] at hother ⊢
  rw [Array.getElem?_setIfInBounds, Function.update_apply]
  by_cases hhere : other = offset
  · rw [if_pos hhere, hhere, if_pos rfl, if_pos (Nat.mod_lt _ (Nat.zero_lt_of_lt hoffset))]
  · have hplaces : (head + offset) % slots.size ≠ (head + other) % slots.size :=
      fun hsame => hhere ((place_inj hoffset hother).mp hsame).symm
    rw [if_neg hhere, if_neg hplaces]
    exact haround other hother

theorem Around.writeHead (haround : Around slots head contents) (hhead : head < slots.size)
    (content : Option α) :
    Around (slots.setIfInBounds head content) head (Function.update contents 0 content) := by
  have hwritten := haround.write (Nat.zero_lt_of_lt hhead) content
  rwa [Nat.add_zero, Nat.mod_eq_of_lt hhead] at hwritten

/-- Seen from a head further on, each slot has a smaller offset, or one at the end. -/
theorem Around.turn (haround : Around slots head contents) (distance : Nat) :
    Around slots ((head + distance) % slots.size)
      fun offset => contents ((distance + offset) % slots.size) := by
  intro offset hoffset
  have hplace : (head + (distance + offset) % slots.size) % slots.size =
      ((head + distance) % slots.size + offset) % slots.size := by
    rw [Nat.add_mod_mod, Nat.mod_add_mod, Nat.add_assoc]
  rw [← hplace]
  exact haround _ (Nat.mod_lt _ (Nat.zero_lt_of_lt hoffset))

end Around

/-! ## Sequences in a ring -/

/-- The ring of a deque is well formed and holds these items from the head on. -/
structure Represents (deque : Deque α) (items : List α) : Prop where
  capacity_pow : ∃ exponent, deque.capacity = 2 ^ exponent
  capacity_eq : deque.capacity = deque.mask + 1
  head_lt : deque.head < deque.capacity
  length_eq : deque.length = items.length
  length_le : items.length ≤ deque.capacity
  /-- An offset beyond the items leads to an empty slot. -/
  around : Around deque.slots deque.head (items[·]?)

theorem represents_withCapacity (capacity : Nat) :
    (withCapacity capacity : Deque α).Represents [] := by
  obtain ⟨exponent, hpower⟩ := Nat.isPowerOfTwo_nextPowerOfTwo (max capacity 1)
  have hpositive : 0 < (max capacity 1).nextPowerOfTwo := hpower ▸ Nat.two_pow_pos exponent
  have hsize : (withCapacity capacity : Deque α).capacity = (max capacity 1).nextPowerOfTwo :=
    Array.size_replicate
  exact {
    capacity_pow := ⟨exponent, hsize.trans hpower⟩
    capacity_eq := hsize.trans (Nat.sub_add_cancel hpositive).symm
    head_lt := hsize ▸ hpositive
    length_eq := rfl
    length_le := Nat.zero_le _
    around := by
      intro offset hoffset
      have hbound := Nat.mod_lt (0 + offset) (Nat.zero_lt_of_lt hoffset)
      rw [withCapacity] at hbound ⊢
      dsimp only at hbound ⊢
      rw [Array.size_replicate] at hbound ⊢
      rw [Array.getElem?_replicate, if_pos hbound]
      rfl }

variable {deque : Deque α} {items : List α}

/-- Masking wraps around the end of the ring. -/
theorem Represents.and_mask (hrepresents : deque.Represents items) (number : Nat) :
    number &&& deque.mask = number % deque.capacity := by
  obtain ⟨exponent, hpower⟩ := hrepresents.capacity_pow
  have hmask : deque.mask = 2 ^ exponent - 1 := by
    rw [← hpower, hrepresents.capacity_eq, Nat.add_sub_cancel]
  rw [hmask, hpower, Nat.and_two_pow_sub_one_eq_mod]

theorem Represents.slot_eq (hrepresents : deque.Represents items) (offset : Nat) :
    deque.slot offset = (deque.head + offset) % deque.capacity :=
  hrepresents.and_mask _

theorem Represents.slotValue?_eq (hrepresents : deque.Represents items) {offset : Nat}
    (hoffset : offset < deque.capacity) :
    deque.slotValue? ((deque.head + offset) % deque.capacity) = items[offset]? := by
  rw [slotValue?, capacity, hrepresents.around offset hoffset, Option.join_some]

theorem Represents.get?_eq (hrepresents : deque.Represents items) (index : Nat) :
    deque.get? index = items[index]? := by
  have hlength := hrepresents.length_le
  rw [get?, hrepresents.length_eq]
  split
  next hindex => rw [hrepresents.slot_eq, hrepresents.slotValue?_eq (by omega)]
  next hbeyond => exact (List.getElem?_eq_none (Nat.le_of_not_lt hbeyond)).symm

theorem Represents.slotValue?_head (hrepresents : deque.Represents items) :
    deque.slotValue? deque.head = items.head? := by
  have hfirst := hrepresents.slotValue?_eq (Nat.zero_lt_of_lt hrepresents.head_lt)
  rwa [Nat.add_zero, Nat.mod_eq_of_lt hrepresents.head_lt, ← List.head?_eq_getElem?] at hfirst

/-- A ring of the same size with other contents. -/
theorem Represents.relaid (hrepresents : deque.Represents items) {slots : Array (Option α)}
    {head length : Nat} {others : List α} (hsize : slots.size = deque.capacity)
    (hhead : head < deque.capacity) (hlength : length = others.length)
    (hfits : others.length ≤ deque.capacity)
    (haround : Around slots head (others[·]?)) :
    (⟨slots, head, length, deque.mask⟩ : Deque α).Represents others where
  capacity_pow := hrepresents.capacity_pow.imp fun _ hpower => hsize.trans hpower
  capacity_eq := hsize.trans hrepresents.capacity_eq
  head_lt := hhead.trans_eq hsize.symm
  length_eq := hlength
  length_le := hfits.trans_eq hsize.symm
  around := haround

/-! ## Growing -/

theorem capacity_grow (deque : Deque α) : deque.grow.capacity = deque.capacity * 2 :=
  Array.size_ofFn

/-- In a ring of twice the size the items start at slot zero. -/
theorem Represents.grow (hrepresents : deque.Represents items) :
    deque.grow.Represents items := by
  have hsize := capacity_grow deque
  have hhead := hrepresents.head_lt
  have hlength := hrepresents.length_le
  exact {
    capacity_pow := by
      obtain ⟨exponent, hpower⟩ := hrepresents.capacity_pow
      exact ⟨exponent + 1, by rw [hsize, hpower, Nat.pow_succ]⟩
    capacity_eq := by
      change deque.grow.capacity = deque.capacity * 2 - 1 + 1
      omega
    head_lt := by
      change 0 < deque.grow.capacity
      omega
    length_eq := hrepresents.length_eq
    length_le := by omega
    around := by
      intro offset hoffset
      change offset < deque.grow.capacity at hoffset
      have hplace : (deque.grow.head + offset) % deque.grow.slots.size = offset :=
        (congrArg (· % _) (Nat.zero_add offset)).trans (Nat.mod_eq_of_lt hoffset)
      rw [hsize] at hoffset
      rw [hplace]
      change (Array.ofFn fun target : Fin (deque.capacity * 2) => deque.get? target)[offset]? = _
      rw [Array.getElem?_ofFn, dif_pos hoffset, hrepresents.get?_eq] }

/-- A push finds room, in the same ring or in one of twice the size. -/
theorem Represents.reserve (hrepresents : deque.Represents items) :
    deque.reserve.state.Represents items ∧
      items.length < deque.reserve.state.capacity := by
  have hsize := capacity_grow deque
  have hhead := hrepresents.head_lt
  have hlength := hrepresents.length_le
  rw [Deque.reserve, hrepresents.length_eq]
  split
  next hfull => exact ⟨hrepresents.grow, by dsimp only; omega⟩
  next hroom => exact ⟨hrepresents, Nat.lt_of_le_of_ne hlength hroom⟩

/-! ## Pushing and popping -/

theorem update_length_eq (items : List α) (value : α) (offset : Nat) :
    Function.update (items[·]?) items.length (some value) offset = (items ++ [value])[offset]? := by
  rw [Function.update_apply]
  split
  next hhere => rw [hhere, List.getElem?_concat_length]
  next hother =>
    rcases Nat.lt_or_gt_of_ne hother with hbefore | hbeyond
    · exact (List.getElem?_append_left hbefore).symm
    · rw [List.getElem?_eq_none (Nat.le_of_lt hbeyond), List.getElem?_eq_none]
      rw [List.length_append]
      exact hbeyond

theorem Represents.pushBack (hrepresents : deque.Represents items) (value : α) :
    (deque.pushBack value).state.Represents (items ++ [value]) := by
  obtain ⟨hroomy, hroom⟩ := hrepresents.reserve
  change Represents ⟨deque.reserve.state.slots.setIfInBounds
      (deque.reserve.state.slot deque.reserve.state.length) (some value),
    deque.reserve.state.head, deque.reserve.state.length + 1, deque.reserve.state.mask⟩ _
  rw [hroomy.slot_eq, hroomy.length_eq]
  have hlength : (items ++ [value]).length = items.length + 1 := List.length_append
  apply hroomy.relaid
  · exact Array.size_setIfInBounds
  · exact hroomy.head_lt
  · exact hlength.symm
  · exact hlength.trans_le hroom
  · apply (hroomy.around.write hroom (some value)).congr
    exact fun offset _ => update_length_eq items value offset

theorem Represents.pushFront (hrepresents : deque.Represents items) (value : α) :
    (deque.pushFront value).state.Represents (value :: items) := by
  obtain ⟨hroomy, hroom⟩ := hrepresents.reserve
  change Represents ⟨deque.reserve.state.slots.setIfInBounds
      ((deque.reserve.state.head + deque.reserve.state.mask) &&& deque.reserve.state.mask)
      (some value),
    (deque.reserve.state.head + deque.reserve.state.mask) &&& deque.reserve.state.mask,
    deque.reserve.state.length + 1, deque.reserve.state.mask⟩ _
  rw [hroomy.and_mask, hroomy.length_eq]
  have hhead := Nat.mod_lt (deque.reserve.state.head + deque.reserve.state.mask)
    (Nat.zero_lt_of_lt hroom)
  apply hroomy.relaid
  · exact Array.size_setIfInBounds
  · exact hhead
  · rfl
  · exact hroom
  · apply ((hroomy.around.turn deque.reserve.state.mask).writeHead hhead (some value)).congr
    intro offset hoffset
    rw [Array.size_setIfInBounds] at hoffset
    change offset < deque.reserve.state.capacity at hoffset
    change Function.update
      (fun other => items[(deque.reserve.state.mask + other) % deque.reserve.state.capacity]?)
      0 (some value) offset = _
    cases offset with
    | zero => rfl
    | succ offset =>
        rw [Function.update_of_ne (Nat.succ_ne_zero offset), List.getElem?_cons_succ]
        have hturned : deque.reserve.state.mask + (offset + 1) =
            offset + deque.reserve.state.capacity := by
          rw [hroomy.capacity_eq]
          omega
        rw [hturned, Nat.add_mod_right, Nat.mod_eq_of_lt (Nat.lt_of_succ_lt hoffset)]

theorem Represents.popFront (hrepresents : deque.Represents items) :
    deque.popFront.1 = items.head? ∧ deque.popFront.2.Represents items.tail := by
  have hfits := hrepresents.length_le
  have hlength := hrepresents.length_eq
  rw [Deque.popFront]
  split
  next hempty =>
    obtain rfl : items = [] := List.eq_nil_of_length_eq_zero (hlength.symm.trans hempty)
    exact ⟨rfl, hrepresents⟩
  next hfilled =>
    refine ⟨hrepresents.slotValue?_head, ?_⟩
    rw [hrepresents.and_mask]
    have hsize : (deque.slots.setIfInBounds deque.head none).size = deque.capacity :=
      Array.size_setIfInBounds
    have hemptied := (hrepresents.around.writeHead hrepresents.head_lt none).turn 1
    rw [hsize] at hemptied
    apply hrepresents.relaid
    · exact hsize
    · exact Nat.mod_lt _ (Nat.zero_lt_of_lt hrepresents.head_lt)
    · rw [List.length_tail, hlength]
    · rw [List.length_tail]
      omega
    · apply hemptied.congr
      intro offset hoffset
      rw [hsize] at hoffset
      rw [List.getElem?_tail, Nat.add_comm 1 offset]
      rcases Nat.eq_or_lt_of_le (Nat.succ_le_of_lt hoffset) with hlast | hinside
      · -- the slot of the old head is the last one around the new head
        rw [show offset + 1 = deque.capacity from hlast, Nat.mod_self, Function.update_self,
          List.getElem?_eq_none hfits]
      · rw [Nat.mod_eq_of_lt hinside, Function.update_of_ne (Nat.succ_ne_zero offset)]

theorem Represents.popBack (hrepresents : deque.Represents items) :
    deque.popBack.1 = items.getLast? ∧ deque.popBack.2.Represents items.dropLast := by
  have hfits := hrepresents.length_le
  have hlength := hrepresents.length_eq
  rw [Deque.popBack]
  split
  next hempty =>
    obtain rfl : items = [] := List.eq_nil_of_length_eq_zero (hlength.symm.trans hempty)
    exact ⟨rfl, hrepresents⟩
  next hfilled =>
    have hlast : deque.length - 1 < deque.capacity := by omega
    dsimp only
    rw [hrepresents.slot_eq, hrepresents.slotValue?_eq hlast, hlength]
    rw [hlength] at hlast
    refine ⟨List.getLast?_eq_getElem?.symm, ?_⟩
    apply hrepresents.relaid
    · exact Array.size_setIfInBounds
    · exact hrepresents.head_lt
    · exact List.length_dropLast.symm
    · rw [List.length_dropLast]
      omega
    · apply (hrepresents.around.write hlast none).congr
      intro offset _
      rw [Function.update_apply, List.getElem?_dropLast]
      split
      next hhere => rw [hhere, if_neg (Nat.lt_irrefl _)]
      next hother =>
        split
        next => rfl
        next hbeyond => exact List.getElem?_eq_none (by omega)

/-! ## Changes in place -/

theorem update_modify_eq {items : List α} {index : Nat} {value : α}
    (hvalue : items[index]? = some value) (change : α → α) (offset : Nat) :
    Function.update (items[·]?) index (some (change value)) offset =
      (items.modify index change)[offset]? := by
  rw [Function.update_apply, List.getElem?_modify]
  split
  next hhere =>
    rw [hhere, hvalue]
    simp
  next hother =>
    simp [Ne.symm hother]

theorem Represents.modify (hrepresents : deque.Represents items) (index : Nat)
    (change : α → α) :
    (deque.modify index change).1 = items[index]? ∧
      (deque.modify index change).2.Represents (items.modify index change) := by
  have hfits := hrepresents.length_le
  rw [Deque.modify, hrepresents.length_eq]
  split
  next hindex =>
    have hplace : index < deque.capacity := Nat.lt_of_lt_of_le hindex hfits
    have hvalue : items[index]? = some items[index] := List.getElem?_eq_getElem hindex
    dsimp only
    rw [hrepresents.slot_eq, hrepresents.slotValue?_eq hplace, hvalue]
    refine ⟨rfl, ?_⟩
    apply hrepresents.relaid
    · exact Array.size_setIfInBounds
    · exact hrepresents.head_lt
    · rw [List.length_modify]
    · rw [List.length_modify]
      exact hfits
    · apply (hrepresents.around.write hplace (some (change items[index]))).congr
      exact fun offset _ => update_modify_eq hvalue change offset
  next hbeyond =>
    have hbound := Nat.le_of_not_lt hbeyond
    rw [List.getElem?_eq_none hbound, List.modify_eq_self hbound]
    exact ⟨rfl, hrepresents⟩

/-- Emptying slots moves neither the head nor the end of the ring. -/
theorem Represents.vacate (hrepresents : deque.Represents items) {count : Nat}
    (hcount : count ≤ deque.capacity) :
    (deque.vacate count).head = deque.head ∧ (deque.vacate count).mask = deque.mask ∧
      (deque.vacate count).capacity = deque.capacity ∧
      Around (deque.vacate count).slots deque.head
        fun offset => if offset < count then none else items[offset]? := by
  induction count with
  | zero => exact ⟨rfl, rfl, rfl, hrepresents.around⟩
  | succ count ih =>
      obtain ⟨hhead, hmask, hsize, haround⟩ := ih (Nat.le_of_succ_le hcount)
      have hnext : deque.vacate (count + 1) =
          { deque.vacate count with
            slots := (deque.vacate count).slots.setIfInBounds
              ((deque.vacate count).slot count) none } := by
        rw [Deque.vacate, List.range_succ, List.foldl_append]
        rfl
      have hplace : (deque.vacate count).slot count =
          (deque.head + count) % (deque.vacate count).slots.size := by
        rw [slot, hhead, hmask, hrepresents.and_mask]
        exact congrArg _ hsize.symm
      rw [hnext, hplace]
      refine ⟨hhead, hmask, Array.size_setIfInBounds.trans hsize, ?_⟩
      have hbound : count < (deque.vacate count).slots.size :=
        Nat.lt_of_succ_le (hcount.trans_eq hsize.symm)
      apply (haround.write hbound none).congr
      intro offset _
      rw [Function.update_apply]
      grind

theorem Represents.clear (hrepresents : deque.Represents items) :
    deque.clear.Represents [] := by
  have hcount : deque.length ≤ deque.capacity :=
    hrepresents.length_eq.trans_le hrepresents.length_le
  obtain ⟨-, hmask, hsize, haround⟩ := hrepresents.vacate hcount
  have hhead := hrepresents.head_lt
  change Represents ⟨(deque.vacate deque.length).slots, 0, 0, (deque.vacate deque.length).mask⟩ []
  rw [hmask]
  have hturned := haround.turn (deque.capacity - deque.head)
  change Around _ (_ % (deque.vacate deque.length).capacity) _ at hturned
  rw [hsize, Nat.add_sub_cancel' (Nat.le_of_lt hhead), Nat.mod_self] at hturned
  apply hrepresents.relaid
  · exact hsize
  · exact Nat.zero_lt_of_lt hhead
  · rfl
  · exact Nat.zero_le _
  · apply hturned.congr
    intro offset _
    split
    next => rfl
    next hbeyond =>
      apply List.getElem?_eq_none
      exact hrepresents.length_eq.symm.trans_le (Nat.le_of_not_lt hbeyond)

end Deque

end Collections
