import Mathlib
import Collections.Lru.Recency

/-!
# Links of the recency order

The links of a recency order hold a list of slots if each slot leads to the slot after
it in the list and back to the slot before it.  A slot can then be linked and unlinked
at the sole place, the head, the tail or inside by changing the links at the seams
only, and a walk along the links meets exactly the slots of the list.
-/

namespace Collections

/-! ## Tables with a write in another place -/

section Tables

variable {α : Type*} (table : Array α) {slot : Nat}

theorem modify_setIfInBounds {other : Nat} (hother : slot ≠ other) (item : α)
    (change : α → α) :
    (table.setIfInBounds slot item).modify other change =
      (table.modify other change).setIfInBounds slot item := by
  apply Array.ext_getElem?
  grind

theorem push_setIfInBounds (hslot : slot ≠ table.size) (item added : α) :
    (table.setIfInBounds slot item).push added =
      (table.push added).setIfInBounds slot item := by
  apply Array.ext_getElem?
  grind

end Tables

namespace Recency

/-! ## Segments -/

/-- The slots lead to each other in this order, the first one back to `before` and the last
one on to `after`. -/
def Linked (links : Array Link) : Option Nat → List Nat → Option Nat → Prop
  | _, [], _ => True
  | before, slot :: slots, after =>
    links[slot]? = some ⟨before, slots.head?.or after⟩ ∧ Linked links (some slot) slots after

theorem linked_append {links : Array Link} {front back : List Nat} {before after : Option Nat} :
    Linked links before (front ++ back) after ↔
      Linked links before front (back.head?.or after) ∧
        Linked links (front.getLast?.or before) back after := by
  induction front generalizing before with
  | nil => simp [Linked]
  | cons slot rest ih =>
      rw [List.cons_append, Linked, Linked, ih, List.head?_append, Option.or_assoc, and_assoc,
        List.getLast?_cons, ← Option.or_some, Option.or_assoc, Option.some_or]

theorem linked_cons_middle {links : Array Link} {front back : List Nat} {slot : Nat}
    {before after : Option Nat} :
    Linked links before (front ++ slot :: back) after ↔
      Linked links before front (some slot) ∧
        links[slot]? = some ⟨front.getLast?.or before, back.head?.or after⟩ ∧
          Linked links (some slot) back after := by
  rw [linked_append, List.head?_cons, Option.some_or, Linked]

/-- A segment depends on the links of its own slots only. -/
theorem Linked.congr {links changed : Array Link} {slots : List Nat} {before after : Option Nat}
    (hlinked : Linked links before slots after)
    (hsame : ∀ slot ∈ slots, changed[slot]? = links[slot]?) :
    Linked changed before slots after := by
  induction slots generalizing before with
  | nil => trivial
  | cons slot rest ih =>
      refine ⟨?_, ih hlinked.2 fun other hother => hsame other (List.mem_cons_of_mem _ hother)⟩
      rw [hsame slot List.mem_cons_self]
      exact hlinked.1

theorem Linked.setIfInBounds {links : Array Link} {slots : List Nat} {before after : Option Nat}
    (hlinked : Linked links before slots after) {slot : Nat} (houtside : slot ∉ slots)
    (link : Link) : Linked (links.setIfInBounds slot link) before slots after := by
  apply hlinked.congr
  intro other hother
  apply Array.getElem?_setIfInBounds_ne
  exact fun heq => houtside (heq ▸ hother)

theorem Linked.lt_size {links : Array Link} {slots : List Nat} {before after : Option Nat}
    (hlinked : Linked links before slots after) : ∀ slot ∈ slots, slot < links.size := by
  induction slots generalizing before with
  | nil => simp
  | cons slot rest ih =>
      intro other hother
      rcases List.mem_cons.mp hother with rfl | hrest
      · exact (Array.getElem?_eq_some_iff.mp hlinked.1).1
      · exact ih hlinked.2 other hrest

/-! ## Changes at the ends of a segment -/

section Ends

variable (recency : Recency) (place target : Option Nat)

@[simp]
theorem tail_linkForward : (recency.linkForward place target).tail = recency.tail := by
  cases place <;> rfl

@[simp]
theorem length_linkForward : (recency.linkForward place target).length = recency.length := by
  cases place <;> rfl

@[simp]
theorem size_linkForward :
    (recency.linkForward place target).links.size = recency.links.size := by
  cases place <;> simp [linkForward]

@[simp]
theorem head_linkBackward : (recency.linkBackward place target).head = recency.head := by
  cases place <;> rfl

@[simp]
theorem length_linkBackward : (recency.linkBackward place target).length = recency.length := by
  cases place <;> rfl

@[simp]
theorem size_linkBackward :
    (recency.linkBackward place target).links.size = recency.links.size := by
  cases place <;> simp [linkBackward]

variable {place}

theorem getElem?_linkForward {slot : Nat} (hother : place ≠ some slot) :
    (recency.linkForward place target).links[slot]? = recency.links[slot]? := by
  cases place with
  | none => rfl
  | some changed =>
      have hdistinct : changed ≠ slot := fun heq => hother (congrArg some heq)
      simp [linkForward, Array.getElem?_modify, hdistinct]

theorem getElem?_linkBackward {slot : Nat} (hother : place ≠ some slot) :
    (recency.linkBackward place target).links[slot]? = recency.links[slot]? := by
  cases place with
  | none => rfl
  | some changed =>
      have hdistinct : changed ≠ slot := fun heq => hother (congrArg some heq)
      simp [linkBackward, Array.getElem?_modify, hdistinct]

end Ends

variable {recency : Recency} {slots : List Nat} {before after : Option Nat}

/-- The last slot of a segment can be led elsewhere. -/
theorem Linked.linkForward (hlinked : Linked recency.links before slots after)
    (hnodup : slots.Nodup) (target : Option Nat) :
    Linked (recency.linkForward slots.getLast? target).links before slots target := by
  induction slots generalizing before with
  | nil => trivial
  | cons slot rest ih =>
      obtain ⟨hfresh, hrest⟩ := List.nodup_cons.mp hnodup
      cases rest with
      | nil =>
          refine ⟨?_, trivial⟩
          simp [Recency.linkForward, Array.getElem?_modify, hlinked.1]
      | cons second others =>
          refine ⟨?_, ih hlinked.2 hrest⟩
          have hlast : (slot :: second :: others).getLast? ≠ some slot := by
            rw [List.getLast?_cons_cons]
            intro heq
            exact hfresh (List.mem_of_getLast? heq)
          rw [getElem?_linkForward recency target hlast, hlinked.1]
          rfl

/-- The first slot of a segment can be led back elsewhere. -/
theorem Linked.linkBackward (hlinked : Linked recency.links before slots after)
    (hnodup : slots.Nodup) (target : Option Nat) :
    Linked (recency.linkBackward slots.head? target).links target slots after := by
  cases slots with
  | nil => trivial
  | cons slot rest =>
      obtain ⟨hfresh, -⟩ := List.nodup_cons.mp hnodup
      constructor
      · simp [Recency.linkBackward, Array.getElem?_modify, hlinked.1]
      · apply hlinked.2.congr
        intro other hother
        apply getElem?_linkBackward
        rintro heq
        exact hfresh (Option.some.inj heq ▸ hother)

/-- Two segments become one when the last slot of the first and the first slot of the second
are led to each other. -/
theorem linked_bridge {front back : List Nat} {left right : Option Nat}
    (hfront : Linked recency.links none front left) (hback : Linked recency.links right back none)
    (hnodup : (front ++ back).Nodup) :
    Linked ((recency.linkForward front.getLast? back.head?).linkBackward back.head?
      front.getLast?).links none (front ++ back) none := by
  obtain ⟨hfrontNodup, hbackNodup, hdisjoint⟩ := List.nodup_append'.mp hnodup
  have hforward : Linked (recency.linkForward front.getLast? back.head?).links none front
      back.head? := hfront.linkForward hfrontNodup back.head?
  have hkept : Linked (recency.linkForward front.getLast? back.head?).links right back none := by
    apply hback.congr
    intro slot hslot
    apply getElem?_linkForward
    exact fun heq => hdisjoint (List.mem_of_getLast? heq) hslot
  rw [linked_append, Option.or_none, Option.or_none]
  constructor
  · apply hforward.congr
    intro slot hslot
    apply getElem?_linkBackward
    exact fun heq => hdisjoint hslot (List.mem_of_head? heq)
  · exact hkept.linkBackward hbackNodup front.getLast?

/-! ## The whole order -/

/-- The recency order is that of a list of slots, most recently used first. -/
structure Holds (recency : Recency) (slots : List Nat) : Prop where
  nodup : slots.Nodup
  linked : Linked recency.links none slots none
  head_eq : recency.head = slots.head?
  tail_eq : recency.tail = slots.getLast?
  length_eq : recency.length = slots.length

theorem holds_empty : Recency.empty.Holds [] :=
  ⟨List.nodup_nil, trivial, rfl, rfl, rfl⟩

/-- The links of slots that are not in the list are free to change. -/
theorem Holds.congr (hholds : recency.Holds slots) {links : Array Link}
    (hsame : ∀ slot ∈ slots, links[slot]? = recency.links[slot]?) :
    ({ recency with links := links } : Recency).Holds slots where
  nodup := hholds.nodup
  linked := hholds.linked.congr hsame
  head_eq := hholds.head_eq
  tail_eq := hholds.tail_eq
  length_eq := hholds.length_eq

theorem Holds.setIfInBounds (hholds : recency.Holds slots) {slot : Nat} (houtside : slot ∉ slots)
    (link : Link) :
    ({ recency with links := recency.links.setIfInBounds slot link } : Recency).Holds slots :=
  { hholds with linked := hholds.linked.setIfInBounds houtside link }

theorem Holds.addSlot (hholds : recency.Holds slots) : recency.addSlot.Holds slots := by
  apply hholds.congr
  intro slot hslot
  have hold := hholds.linked.lt_size slot hslot
  rw [Array.getElem?_push, if_neg (Nat.ne_of_lt hold)]

theorem slotsFrom_eq (recency : Recency) {slots : List Nat} {before after : Option Nat}
    (hlinked : Linked recency.links before slots after) :
    recency.slotsFrom slots.length slots.head? = slots := by
  induction slots generalizing before with
  | nil => rfl
  | cons slot rest ih =>
      rw [List.length_cons, List.head?_cons, slotsFrom, nextOf, hlinked.1]
      congr 1
      cases rest with
      | nil => rfl
      | cons second others => exact ih hlinked.2

/-- A walk along the links meets the slots in their order. -/
theorem Holds.toList_eq (hholds : recency.Holds slots) : recency.toList = slots := by
  rw [toList, hholds.length_eq, hholds.head_eq]
  exact slotsFrom_eq recency hholds.linked

/-! ## Linking and unlinking -/

@[simp]
theorem size_pushHead (recency : Recency) (slot : Nat) :
    (recency.pushHead slot).links.size = recency.links.size := by
  simp [pushHead]

@[simp]
theorem size_unlink (recency : Recency) (slot : Nat) :
    (recency.unlink slot).links.size = recency.links.size := by
  simp [unlink]

@[simp]
theorem size_moveToHead (recency : Recency) (slot : Nat) :
    (recency.moveToHead slot).links.size = recency.links.size := by
  rw [moveToHead]
  split <;> simp

/-- Two neighbours, either of which may be missing, are led to a slot between them. -/
def attach (recency : Recency) (slot : Nat) (before after : Option Nat) : Recency :=
  { (recency.linkForward before (some slot)).linkBackward after (some slot) with
    length := recency.length + 1 }

/-- A slot that already leads to its neighbours takes its place between them. -/
theorem Holds.attach {front back : List Nat} {slot : Nat} (hholds : recency.Holds (front ++ back))
    (hfresh : slot ∉ front ++ back)
    (hslot : recency.links[slot]? = some ⟨front.getLast?, back.head?⟩) :
    (recency.attach slot front.getLast? back.head?).Holds (front ++ slot :: back) := by
  obtain ⟨hfront, hback⟩ := linked_append.mp hholds.linked
  obtain ⟨hfrontNodup, hbackNodup, hdisjoint⟩ := List.nodup_append'.mp hholds.nodup
  rw [List.mem_append, not_or] at hfresh
  have hbefore : ∀ other ∈ slot :: back, front.getLast? ≠ some other := by
    intro other hother heq
    rcases List.mem_cons.mp hother with rfl | hmem
    · exact hfresh.1 (List.mem_of_getLast? heq)
    · exact hdisjoint (List.mem_of_getLast? heq) hmem
  have hafter : ∀ other ∈ slot :: front, back.head? ≠ some other := by
    intro other hother heq
    rcases List.mem_cons.mp hother with rfl | hmem
    · exact hfresh.2 (List.mem_of_head? heq)
    · exact hdisjoint hmem (List.mem_of_head? heq)
  refine ⟨?_, linked_cons_middle.mpr ⟨?_, ?_, ?_⟩, ?_, ?_, ?_⟩
  · rw [List.nodup_middle, List.nodup_cons, List.mem_append, not_or]
    exact ⟨hfresh, hholds.nodup⟩
  · apply (hfront.linkForward hfrontNodup (some slot)).congr
    intro other hother
    exact getElem?_linkBackward _ _ (hafter other (List.mem_cons_of_mem slot hother))
  · rw [Recency.attach, getElem?_linkBackward _ _ (hafter slot List.mem_cons_self),
      getElem?_linkForward _ _ (hbefore slot List.mem_cons_self), hslot, Option.or_none,
      Option.or_none]
  · have hkept : Linked (recency.linkForward front.getLast? (some slot)).links
        (front.getLast?.or none) back none := by
      apply hback.congr
      intro other hother
      exact getElem?_linkForward _ _ (hbefore other (List.mem_cons_of_mem slot hother))
    exact hkept.linkBackward hbackNodup (some slot)
  · rw [Recency.attach, head_linkBackward]
    cases front with
    | nil => rfl
    | cons first rest =>
        rw [List.getLast?_cons]
        exact hholds.head_eq
  · have htail : (recency.linkForward front.getLast? (some slot)).tail = (front ++ back).getLast? :=
      (tail_linkForward recency _ _).trans hholds.tail_eq
    rw [Recency.attach]
    cases back with
    | nil => simp [Recency.linkBackward]
    | cons first rest =>
        change (recency.linkForward front.getLast? _).tail = _
        rw [htail, List.getLast?_append, List.getLast?_append, List.getLast?_cons_cons]
  · rw [Recency.attach, hholds.length_eq, List.perm_middle.length_eq, List.length_cons]

theorem pushHead_eq_attach (recency : Recency) (slot : Nat) :
    recency.pushHead slot =
      ({ recency with links := recency.links.setIfInBounds slot ⟨none, recency.head⟩ } :
        Recency).attach slot none recency.head := by
  rw [pushHead, attach]
  cases recency.head <;> rfl

theorem Holds.pushHead (hholds : recency.Holds slots) {slot : Nat} (hfresh : slot ∉ slots)
    (hbound : slot < recency.links.size) : (recency.pushHead slot).Holds (slot :: slots) := by
  have hplaced : ({ recency with
      links := recency.links.setIfInBounds slot ⟨none, recency.head⟩ } : Recency).Holds
        ([] ++ slots) :=
    hholds.setIfInBounds hfresh ⟨none, recency.head⟩
  have hattached := hplaced.attach hfresh
    (hholds.head_eq ▸ Array.getElem?_setIfInBounds_self_of_lt hbound)
  rw [← hholds.head_eq] at hattached
  rw [pushHead_eq_attach]
  exact hattached

/-- The links of a slot lead to its neighbours in the list. -/
theorem Holds.neighbours {front back : List Nat} {slot : Nat}
    (hholds : recency.Holds (front ++ slot :: back)) :
    recency.previousOf slot = front.getLast? ∧ recency.nextOf slot = back.head? := by
  obtain ⟨-, hslot, -⟩ := linked_cons_middle.mp hholds.linked
  rw [Option.or_none, Option.or_none] at hslot
  constructor
  · rw [previousOf, hslot, Option.bind_some]
  · rw [nextOf, hslot, Option.bind_some]

/-- A slot is taken out of any place by joining its two neighbours. -/
theorem Holds.unlink {front back : List Nat} {slot : Nat}
    (hholds : recency.Holds (front ++ slot :: back)) :
    (recency.unlink slot).Holds (front ++ back) := by
  obtain ⟨hfront, -, hback⟩ := linked_cons_middle.mp hholds.linked
  have hnodup := List.nodup_middle.mp hholds.nodup
  obtain ⟨hfresh, hrest⟩ := List.nodup_cons.mp hnodup
  obtain ⟨hprevious, hnext⟩ := hholds.neighbours
  refine ⟨hrest, ?_, ?_, ?_, ?_⟩
  · rw [Recency.unlink, hprevious, hnext]
    exact (linked_bridge hfront hback hrest).setIfInBounds hfresh _
  · rw [Recency.unlink, hprevious, hnext]
    dsimp only
    rw [head_linkBackward]
    cases front with
    | nil => rfl
    | cons first rest =>
        rw [List.getLast?_cons]
        change recency.head = _
        rw [hholds.head_eq]
        rfl
  · rw [Recency.unlink, hprevious, hnext]
    dsimp only
    cases back with
    | nil =>
        rw [List.append_nil]
        rfl
    | cons first rest =>
        rw [List.head?_cons]
        change (recency.linkForward front.getLast? _).tail = _
        rw [tail_linkForward, hholds.tail_eq, List.getLast?_append, List.getLast?_append,
          List.getLast?_cons_cons]
  · rw [Recency.unlink, hprevious, hnext]
    dsimp only
    rw [length_linkBackward, length_linkForward, hholds.length_eq]
    simp

/-- A slot is brought to the head, also if it is there already. -/
theorem Holds.moveToHead {front back : List Nat} {slot : Nat}
    (hholds : recency.Holds (front ++ slot :: back)) :
    (recency.moveToHead slot).Holds (slot :: (front ++ back)) := by
  have hnodup := List.nodup_middle.mp hholds.nodup
  obtain ⟨hfresh, -⟩ := List.nodup_cons.mp hnodup
  rw [Recency.moveToHead, hholds.head_eq]
  split
  next hhead =>
    cases front with
    | nil => exact hholds
    | cons first rest =>
        rw [List.cons_append, List.head?_cons, Option.some.injEq] at hhead
        exact absurd List.mem_cons_self (hhead ▸ hfresh)
  next =>
    apply hholds.unlink.pushHead hfresh
    rw [size_unlink]
    apply hholds.linked.lt_size
    simp

/-! ## Walks along links -/

/-- The slot that a number of steps along links leads to from a first one. -/
def follow (link : Nat → Option Nat) (start : Option Nat) : Nat → Option Nat
  | 0 => start
  | steps + 1 => (follow link start steps).bind link

/-- The first step can be taken before the others. -/
theorem follow_succ (link : Nat → Option Nat) (start : Option Nat) (steps : Nat) :
    follow link start (steps + 1) = follow link (start.bind link) steps := by
  induction steps with
  | zero => rfl
  | succ steps ih => rw [follow, ih, follow]

/-- Links that lead from each slot of a list to the next one visit the list and then stop. -/
theorem follow_eq_getElem? {link : Nat → Option Nat} {slots : List Nat}
    (hlink : ∀ front slot back, slots = front ++ slot :: back → link slot = back.head?)
    (steps : Nat) : follow link slots.head? steps = slots[steps]? := by
  induction steps with
  | zero =>
      rw [follow]
      exact List.head?_eq_getElem?
  | succ steps ih =>
      rw [follow, ih]
      by_cases hbound : steps < slots.length
      · rw [List.getElem?_eq_getElem hbound, Option.bind_some]
        have hsplit : slots = slots.take steps ++ slots[steps] :: slots.drop (steps + 1) := by
          rw [List.getElem_cons_drop, List.take_append_drop]
        rw [hlink _ _ _ hsplit]
        exact List.head?_drop
      · have hend : slots.length ≤ steps := Nat.le_of_not_lt hbound
        rw [List.getElem?_eq_none hend, Option.bind_none,
          List.getElem?_eq_none (Nat.le_succ_of_le hend)]

theorem Holds.follow_nextOf (hholds : recency.Holds slots) (steps : Nat) :
    follow recency.nextOf recency.head steps = slots[steps]? := by
  rw [hholds.head_eq]
  apply follow_eq_getElem?
  intro front slot back hslots
  subst hslots
  exact hholds.neighbours.2

theorem Holds.follow_previousOf (hholds : recency.Holds slots) (steps : Nat) :
    follow recency.previousOf recency.tail steps = slots.reverse[steps]? := by
  rw [hholds.tail_eq, ← List.head?_reverse]
  apply follow_eq_getElem?
  intro front slot back hreverse
  have hslots : slots = back.reverse ++ slot :: front.reverse := by
    rw [← List.reverse_reverse slots, hreverse, List.reverse_append, List.reverse_cons,
      List.append_assoc, List.singleton_append]
  subst hslots
  rw [hholds.neighbours.1, List.getLast?_reverse]

end Recency

end Collections
