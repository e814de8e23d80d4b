import Mathlib
import Collections.Proofs.Lru.RecencyLinks
import Collections.Sequence.LinkedList

/-!
# The arena of a linked list

Every slot of the array of a linked list either holds an element of the list or is free,
and no slot is both.  The links of the slots in use are those of a recency order; the
free slots form a chain of their own through the same links.  A push takes the first
slot of that chain, or a new one, and every way to take an element out gives its slot
back to the chain.
-/

namespace Collections

universe u

namespace LinkedList

variable {α : Type u}

/-! ## Links and values apart -/

/-- The neighbours of a node, without its value. -/
def Node.link (node : Node α) : Recency.Link :=
  ⟨node.previous, node.next⟩

/-- The order of the nodes, without their values. -/
def order (list : LinkedList α) : Recency :=
  ⟨list.nodes.map Node.link, list.head, list.tail, list.length⟩

/-- Two neighbours, either of which may be missing, are led to a slot between them. -/
def attach (list : LinkedList α) (slot : Nat) (before after : Option Nat) : LinkedList α :=
  { (list.linkForward before (some slot)).linkBackward after (some slot) with
    length := list.length + 1 }

theorem map_link_modify (nodes : Array (Node α)) (slot : Nat) (change : Node α → Node α)
    (relink : Recency.Link → Recency.Link)
    (hchange : ∀ node, (change node).link = relink node.link) :
    (nodes.modify slot change).map Node.link = (nodes.map Node.link).modify slot relink := by
  apply Array.ext_getElem?
  intro other
  rw [Array.getElem?_map, Array.getElem?_modify, Array.getElem?_modify, Array.getElem?_map]
  split
  · cases nodes[other]? with
    | none => rfl
    | some node => exact congrArg some (hchange node)
  · rfl

theorem value_modify (nodes : Array (Node α)) (changed slot : Nat) {change : Node α → Node α}
    (hchange : ∀ node, (change node).value = node.value) :
    (nodes.modify changed change)[slot]?.bind Node.value = nodes[slot]?.bind Node.value := by
  rw [Array.getElem?_modify]
  split
  · cases nodes[slot]? with
    | none => rfl
    | some node => exact hchange node
  · rfl

section Links

variable (list : LinkedList α) (place target : Option Nat) (slot : Nat)

theorem nextOf_order : list.order.nextOf slot = list.nextOf slot := by
  rw [Recency.nextOf, order, Array.getElem?_map, nextOf]
  cases list.nodes[slot]? <;> rfl

theorem previousOf_order : list.order.previousOf slot = list.previousOf slot := by
  rw [Recency.previousOf, order, Array.getElem?_map, previousOf]
  cases list.nodes[slot]? <;> rfl

theorem order_linkForward :
    (list.linkForward place target).order = list.order.linkForward place target := by
  cases place with
  | none => rfl
  | some changed =>
      exact congrArg (Recency.mk · list.head list.tail list.length)
        (map_link_modify list.nodes changed ({ · with next := target }) ({ · with next := target })
          fun node => rfl)

theorem order_linkBackward :
    (list.linkBackward place target).order = list.order.linkBackward place target := by
  cases place with
  | none => rfl
  | some changed =>
      exact congrArg (Recency.mk · list.head list.tail list.length)
        (map_link_modify list.nodes changed ({ · with previous := target })
          ({ · with previous := target }) fun node => rfl)

theorem order_attach (before after : Option Nat) :
    (list.attach slot before after).order = list.order.attach slot before after := by
  rw [Recency.attach, ← order_linkForward, ← order_linkBackward]
  rfl

theorem valueAt?_linkForward :
    (list.linkForward place target).valueAt? (some slot) = list.valueAt? (some slot) := by
  cases place with
  | none => rfl
  | some changed => exact value_modify list.nodes changed slot fun node => rfl

theorem valueAt?_linkBackward :
    (list.linkBackward place target).valueAt? (some slot) = list.valueAt? (some slot) := by
  cases place with
  | none => rfl
  | some changed => exact value_modify list.nodes changed slot fun node => rfl

@[simp]
theorem length_linkForward : (list.linkForward place target).length = list.length := by
  cases place <;> rfl

@[simp]
theorem length_linkBackward : (list.linkBackward place target).length = list.length := by
  cases place <;> rfl

@[simp]
theorem size_linkForward : (list.linkForward place target).nodes.size = list.nodes.size := by
  cases place <;> simp [linkForward]

@[simp]
theorem size_linkBackward : (list.linkBackward place target).nodes.size = list.nodes.size := by
  cases place <;> simp [linkBackward]

variable {list place slot}

/-- What a slot holds depends on its own node only. -/
theorem valueAt?_congr {changed : LinkedList α} (hsame : changed.nodes[slot]? = list.nodes[slot]?) :
    changed.valueAt? (some slot) = list.valueAt? (some slot) :=
  congrArg (Option.bind · Node.value) hsame

variable (list)

theorem nodes_linkForward (hother : place ≠ some slot) :
    (list.linkForward place target).nodes[slot]? = list.nodes[slot]? := by
  cases place with
  | none => rfl
  | some changed =>
      have hdistinct : changed ≠ slot := fun heq => hother (congrArg some heq)
      simp [linkForward, Array.getElem?_modify, hdistinct]

theorem nodes_linkBackward (hother : place ≠ some slot) :
    (list.linkBackward place target).nodes[slot]? = list.nodes[slot]? := by
  cases place with
  | none => rfl
  | some changed =>
      have hdistinct : changed ≠ slot := fun heq => hother (congrArg some heq)
      simp [linkBackward, Array.getElem?_modify, hdistinct]

end Links

/-! ## The free chain -/

/-- The slots are empty and lead to each other in this order, the last one to nothing. -/
def Vacant (nodes : Array (Node α)) : List Nat → Prop
  | [] => True
  | slot :: slots => nodes[slot]? = some ⟨none, none, slots.head?⟩ ∧ Vacant nodes slots

theorem Vacant.congr {nodes changed : Array (Node α)} {slots : List Nat}
    (hvacant : Vacant nodes slots) (hsame : ∀ slot ∈ slots, changed[slot]? = nodes[slot]?) :
    Vacant changed slots := by
  induction slots with
  | nil => trivial
  | cons slot rest ih =>
      refine ⟨?_, ih hvacant.2 fun other hother => hsame other (List.mem_cons_of_mem _ hother)⟩
      rw [hsame slot List.mem_cons_self]
      exact hvacant.1

/-! ## The whole arena -/

/-- A list holds these values in these slots, in this order, and its other slots are free, the
one freed last first. -/
structure Layout (list : LinkedList α) (placed : List (Nat × α)) (free : List Nat) : Prop where
  order : list.order.Holds (placed.map Prod.fst)
  stored : ∀ slot value, (slot, value) ∈ placed → list.valueAt? (some slot) = some value
  free_eq : list.free = free.head?
  vacant : Vacant list.nodes free
  slots_perm : (placed.map Prod.fst ++ free).Perm (List.range list.nodes.size)

theorem layout_empty : (empty : LinkedList α).Layout [] [] where
  order := by
    rw [LinkedList.order, empty, Array.map_empty]
    exact Recency.holds_empty
  stored := by simp
  free_eq := rfl
  vacant := trivial
  slots_perm := List.Perm.refl []

section Facts

variable {list : LinkedList α} {placed : List (Nat × α)} {free : List Nat}

theorem Layout.nodup (hlayout : list.Layout placed free) :
    (placed.map Prod.fst ++ free).Nodup :=
  hlayout.slots_perm.nodup_iff.mpr List.nodup_range

theorem Layout.mem_slots_iff (hlayout : list.Layout placed free) {slot : Nat} :
    slot ∈ placed.map Prod.fst ++ free ↔ slot < list.nodes.size :=
  hlayout.slots_perm.mem_iff.trans List.mem_range

theorem Layout.length_eq (hlayout : list.Layout placed free) : list.length = placed.length :=
  hlayout.order.length_eq.trans (List.length_map _)

theorem Layout.front?_eq (hlayout : list.Layout placed free) :
    list.front? = (placed.map Prod.snd).head? := by
  have hhead : list.head = (placed.map Prod.fst).head? := hlayout.order.head_eq
  rw [front?, hhead]
  cases placed with
  | nil => rfl
  | cons entry rest => exact hlayout.stored entry.1 entry.2 List.mem_cons_self

theorem Layout.back?_eq (hlayout : list.Layout placed free) :
    list.back? = (placed.map Prod.snd).getLast? := by
  have htail : list.tail = (placed.map Prod.fst).getLast? := hlayout.order.tail_eq
  rw [back?, htail, List.getLast?_map, List.getLast?_map]
  cases hlast : placed.getLast? with
  | none => rfl
  | some entry => exact hlayout.stored entry.1 entry.2 (List.mem_of_getLast? hlast)

end Facts

section Changes

variable {list : LinkedList α} {front back : List (Nat × α)} {slot : Nat} {value : α}
  {free : List Nat}

/-- A slot in use and the same slot at the start of the free chain account for the same slots. -/
theorem slots_perm_middle (front back : List (Nat × α)) (slot : Nat) (value : α)
    (free : List Nat) :
    ((front ++ (slot, value) :: back).map Prod.fst ++ free).Perm
      ((front ++ back).map Prod.fst ++ slot :: free) := by
  rw [List.map_append, List.map_cons, List.append_assoc, List.cons_append]
  refine List.perm_middle.trans ?_
  rw [← List.append_assoc, ← List.map_append]
  exact List.perm_middle.symm

theorem mem_middle_of_mem {entry : Nat × α} (hentry : entry ∈ front ++ back) :
    entry ∈ front ++ (slot, value) :: back :=
  List.perm_middle.mem_iff.mpr (List.mem_cons_of_mem _ hentry)

theorem not_mem_of_nodup (hnodup : ((front ++ back).map Prod.fst ++ slot :: free).Nodup) :
    slot ∉ (front ++ back).map Prod.fst := fun hslot =>
  (List.nodup_append'.mp hnodup).2.2 hslot List.mem_cons_self

/-- A slot further down the free chain is none of those that a change between `front` and `back`
touches. -/
theorem untouched_of_nodup (hnodup : ((front ++ back).map Prod.fst ++ slot :: free).Nodup)
    {other : Nat} (hother : other ∈ free) :
    slot ≠ other ∧ (front.map Prod.fst).getLast? ≠ some other ∧
      (back.map Prod.fst).head? ≠ some other := by
  obtain ⟨-, hfree, hdisjoint⟩ := List.nodup_append'.mp hnodup
  have houtside : other ∉ front.map Prod.fst ++ back.map Prod.fst := by
    rw [← List.map_append]
    exact fun hslot => hdisjoint hslot (List.mem_cons_of_mem slot hother)
  rw [List.mem_append, not_or] at houtside
  refine ⟨?_, ?_, ?_⟩
  · exact fun heq => (List.nodup_cons.mp hfree).1 (heq ▸ hother)
  · exact fun heq => houtside.1 (List.mem_of_getLast? heq)
  · exact fun heq => houtside.2 (List.mem_of_head? heq)

/-! ### Taking an element out -/

theorem order_release (list : LinkedList α) (slot : Nat) :
    (list.release slot).2.order =
      { list.order.unlink slot with
        links := (list.order.unlink slot).links.setIfInBounds slot ⟨none, list.free⟩ } := by
  rw [Recency.unlink, previousOf_order, nextOf_order, ← order_linkForward, ← order_linkBackward,
    Array.setIfInBounds_setIfInBounds, order, release, Array.map_setIfInBounds]
  simp only [order, length_linkForward, length_linkBackward]
  rfl

/-- Only a slot and the slots of its neighbours change. -/
theorem nodes_release {other : Nat} (hself : slot ≠ other)
    (hprevious : list.previousOf slot ≠ some other) (hnext : list.nextOf slot ≠ some other) :
    (list.release slot).2.nodes[other]? = list.nodes[other]? := by
  rw [release, Array.getElem?_setIfInBounds_ne hself, nodes_linkBackward _ _ hnext,
    nodes_linkForward _ _ hprevious]

theorem valueAt?_release {other : Nat} (hself : slot ≠ other) :
    (list.release slot).2.valueAt? (some other) = list.valueAt? (some other) := by
  let forward := list.linkForward (list.previousOf slot) (list.nextOf slot)
  calc
    (list.release slot).2.valueAt? (some other) =
        (forward.linkBackward (list.nextOf slot) (list.previousOf slot)).valueAt? (some other) :=
      valueAt?_congr (Array.getElem?_setIfInBounds_ne hself)
    _ = forward.valueAt? (some other) := valueAt?_linkBackward _ _ _ _
    _ = list.valueAt? (some other) := valueAt?_linkForward _ _ _ _

theorem size_release (list : LinkedList α) (slot : Nat) :
    (list.release slot).2.nodes.size = list.nodes.size := by
  simp [release]

/-- The node in a slot is taken out, and its slot is the first one to be used again. -/
theorem Layout.release (hlayout : list.Layout (front ++ (slot, value) :: back) free) :
    (list.release slot).1 = some value ∧
      (list.release slot).2.Layout (front ++ back) (slot :: free) := by
  have horder := hlayout.order
  rw [List.map_append, List.map_cons] at horder
  have hunlinked := horder.unlink
  rw [← List.map_append] at hunlinked
  have hslots := slots_perm_middle front back slot value free
  have hnodup := hslots.nodup_iff.mp hlayout.nodup
  have hunused := not_mem_of_nodup hnodup
  have hfreed : (list.release slot).2.nodes[slot]? = some ⟨none, none, free.head?⟩ := by
    have hbound : slot < list.nodes.size := hlayout.mem_slots_iff.mp (by simp)
    rw [LinkedList.release]
    dsimp only
    rw [Array.getElem?_setIfInBounds_self_of_lt (by simpa using hbound), hlayout.free_eq]
  have hkept : ∀ other ∈ free, (list.release slot).2.nodes[other]? = list.nodes[other]? := by
    intro other hother
    obtain ⟨hdistinct, hlast, hfirst⟩ := untouched_of_nodup hnodup hother
    obtain ⟨hprevious, hnext⟩ := horder.neighbours
    rw [previousOf_order] at hprevious
    rw [nextOf_order] at hnext
    exact nodes_release hdistinct (hprevious ▸ hlast) (hnext ▸ hfirst)
  exact ⟨hlayout.stored slot value (by simp), {
    order := by
      rw [order_release]
      exact hunlinked.setIfInBounds hunused _
    stored := by
      intro other stored hstored
      have hdistinct : slot ≠ other := fun heq => hunused (heq ▸ List.mem_map_of_mem hstored)
      rw [valueAt?_release hdistinct]
      exact hlayout.stored other stored (mem_middle_of_mem hstored)
    free_eq := rfl
    vacant := ⟨hfreed, hlayout.vacant.congr hkept⟩
    slots_perm := by
      rw [size_release]
      exact hslots.symm.trans hlayout.slots_perm }⟩

/-! ### Putting an element in -/

/-- The list with one more slot, which is free. -/
def grow (list : LinkedList α) : LinkedList α :=
  { list with
    nodes := list.nodes.push ⟨none, none, none⟩
    free := some list.nodes.size }

theorem order_grow (list : LinkedList α) : list.grow.order = list.order.addSlot := by
  rw [order, grow, Array.map_push]
  rfl

theorem Layout.grow {placed : List (Nat × α)} (hlayout : list.Layout placed []) :
    list.grow.Layout placed [list.nodes.size] := by
  have hsame : ∀ slot, slot < list.nodes.size → list.grow.nodes[slot]? = list.nodes[slot]? := by
    intro slot hbound
    rw [LinkedList.grow, Array.getElem?_push, if_neg (Nat.ne_of_lt hbound)]
  have hbound : ∀ slot ∈ placed.map Prod.fst, slot < list.nodes.size := by
    intro slot hslot
    exact hlayout.mem_slots_iff.mp (List.mem_append_left [] hslot)
  exact {
    order := by
      rw [order_grow]
      exact hlayout.order.addSlot
    stored := by
      intro slot value hstored
      rw [valueAt?_congr (hsame slot (hbound slot (List.mem_map_of_mem hstored)))]
      exact hlayout.stored slot value hstored
    free_eq := rfl
    vacant := ⟨Array.getElem?_push_size, trivial⟩
    slots_perm := by
      have hslots := hlayout.slots_perm
      rw [List.append_nil] at hslots
      rw [LinkedList.grow, Array.size_push, List.range_succ]
      exact hslots.append_right [list.nodes.size] }

/-- A slot is taken from the free chain, if need be after the array has grown. -/
theorem allocate_of_none (hfree : list.free = none) (node : Node α) :
    list.allocate node = list.grow.allocate node := by
  have hnodes : list.nodes.push node = list.grow.nodes.setIfInBounds list.nodes.size node := by
    apply Array.ext_getElem?
    intro slot
    rw [grow, Array.getElem?_push, Array.getElem?_setIfInBounds, Array.getElem?_push,
      Array.size_push]
    split
    next hlast => simp [hlast]
    next hother => rw [if_neg (Ne.symm hother)]
  have hnext : list.grow.nextOf list.nodes.size = none := by
    simp [nextOf, grow]
  calc
    list.allocate node = (list.nodes.size, { list with nodes := list.nodes.push node }) := by
      rw [allocate, hfree]
    _ = (list.nodes.size, { list.grow with
          free := list.grow.nextOf list.nodes.size
          nodes := list.grow.nodes.setIfInBounds list.nodes.size node }) := by
      rw [hnodes, hnext, ← hfree]
      rfl

/-- The list with a node in the first slot of the free chain. -/
def occupy (list : LinkedList α) (slot : Nat) (node : Node α) : LinkedList α :=
  { list with
    free := list.nextOf slot
    nodes := list.nodes.setIfInBounds slot node }

theorem allocate_of_some (hfree : list.free = some slot) (node : Node α) :
    list.allocate node = (slot, list.occupy slot node) := by
  rw [allocate, hfree, occupy]

theorem order_occupy (list : LinkedList α) (slot : Nat) (node : Node α) :
    (list.occupy slot node).order =
      { list.order with links := list.order.links.setIfInBounds slot node.link } := by
  rw [order, occupy, Array.map_setIfInBounds]
  rfl

theorem valueAt?_attach (list : LinkedList α) (slot : Nat) (before after : Option Nat)
    (other : Nat) :
    (list.attach slot before after).valueAt? (some other) = list.valueAt? (some other) :=
  calc
    (list.attach slot before after).valueAt? (some other) =
        (list.linkForward before (some slot)).valueAt? (some other) :=
      valueAt?_linkBackward _ _ _ _
    _ = list.valueAt? (some other) := valueAt?_linkForward _ _ _ _

/-- Only the slots of the neighbours change. -/
theorem nodes_attach {before after : Option Nat} {other : Nat} (hbefore : before ≠ some other)
    (hafter : after ≠ some other) :
    (list.attach slot before after).nodes[other]? = list.nodes[other]? := by
  rw [attach, nodes_linkBackward _ _ hafter, nodes_linkForward _ _ hbefore]

theorem free_attach (list : LinkedList α) (slot : Nat) (before after : Option Nat) :
    (list.attach slot before after).free = list.free := by
  cases before <;> cases after <;> rfl

theorem size_attach (list : LinkedList α) (slot : Nat) (before after : Option Nat) :
    (list.attach slot before after).nodes.size = list.nodes.size := by
  simp [attach]

/-- A new element takes the first slot of the free chain, between two neighbours. -/
theorem Layout.attach (hlayout : list.Layout (front ++ back) (slot :: free)) (value : α) :
    ((list.occupy slot
      ⟨some value, (front.map Prod.fst).getLast?, (back.map Prod.fst).head?⟩).attach slot
        (front.map Prod.fst).getLast? (back.map Prod.fst).head?).Layout
      (front ++ (slot, value) :: back) free := by
  have hunused := not_mem_of_nodup hlayout.nodup
  have hbound : slot < list.nodes.size := hlayout.mem_slots_iff.mp (by simp)
  exact {
    order := by
      have hunlinked := hlayout.order
      rw [List.map_append] at hunlinked hunused ⊢
      rw [order_attach, order_occupy]
      apply Recency.Holds.attach _ hunused
      · exact Array.getElem?_setIfInBounds_self_of_lt (by simpa [LinkedList.order] using hbound)
      · exact hunlinked.setIfInBounds hunused _
    stored := by
      intro other stored hstored
      rw [valueAt?_attach]
      rcases List.mem_cons.mp (List.perm_middle.mem_iff.mp hstored) with heq | hkept
      · obtain ⟨rfl, rfl⟩ := Prod.mk.inj heq
        rw [valueAt?, Option.bind_some, occupy, Array.getElem?_setIfInBounds_self_of_lt hbound]
        rfl
      · have hdistinct : slot ≠ other := fun heq => hunused (heq ▸ List.mem_map_of_mem hkept)
        rw [← hlayout.stored other stored hkept]
        exact valueAt?_congr (Array.getElem?_setIfInBounds_ne hdistinct)
    free_eq := by
      rw [free_attach]
      change list.nextOf slot = free.head?
      rw [nextOf, hlayout.vacant.1, Option.bind_some]
    vacant := by
      apply hlayout.vacant.2.congr
      intro other hother
      obtain ⟨hdistinct, hlast, hfirst⟩ := untouched_of_nodup hlayout.nodup hother
      rw [nodes_attach hlast hfirst]
      exact Array.getElem?_setIfInBounds_ne hdistinct
    slots_perm := by
      rw [size_attach, occupy, Array.size_setIfInBounds]
      exact (slots_perm_middle front back slot value free).trans hlayout.slots_perm }

/-- A new element takes the first slot of the free chain, or else a new one. -/
theorem Layout.attach_allocate (hlayout : list.Layout (front ++ back) free) (value : α) :
    let allocated := list.allocate
      ⟨some value, (front.map Prod.fst).getLast?, (back.map Prod.fst).head?⟩
    (allocated.2.attach allocated.1 (front.map Prod.fst).getLast?
        (back.map Prod.fst).head?).Layout
      (front ++ (free.headD list.nodes.size, value) :: back) free.tail := by
  -- An array without a free slot grows by one first, and the new slot is then the first free one.
  cases free with
  | nil =>
      rw [allocate_of_none hlayout.free_eq, allocate_of_some rfl]
      exact hlayout.grow.attach value
  | cons slot free =>
      rw [allocate_of_some hlayout.free_eq]
      exact hlayout.attach value

theorem pushFront_eq_attach (list : LinkedList α) (value : α) :
    let allocated := list.allocate ⟨some value, none, list.head⟩
    list.pushFront value = allocated.2.attach allocated.1 none list.head := by
  obtain ⟨nodes, head, tail, free, length⟩ := list
  cases free <;> cases head <;> rfl

theorem pushBack_eq_attach (list : LinkedList α) (value : α) :
    let allocated := list.allocate ⟨some value, list.tail, none⟩
    list.pushBack value = allocated.2.attach allocated.1 list.tail none := by
  obtain ⟨nodes, head, tail, free, length⟩ := list
  cases free <;> cases tail <;> rfl

theorem Layout.pushFront {placed : List (Nat × α)} (hlayout : list.Layout placed free)
    (value : α) :
    (list.pushFront value).Layout ((free.headD list.nodes.size, value) :: placed) free.tail := by
  have hhead : list.head = (placed.map Prod.fst).head? := hlayout.order.head_eq
  rw [pushFront_eq_attach, hhead]
  have hseam : list.Layout ([] ++ placed) free := hlayout
  exact hseam.attach_allocate value

theorem Layout.pushBack {placed : List (Nat × α)} (hlayout : list.Layout placed free)
    (value : α) :
    (list.pushBack value).Layout (placed ++ [(free.headD list.nodes.size, value)]) free.tail := by
  have htail : list.tail = (placed.map Prod.fst).getLast? := hlayout.order.tail_eq
  rw [pushBack_eq_attach, htail]
  have hseam : list.Layout (placed ++ []) free := by rwa [List.append_nil]
  exact hseam.attach_allocate value

/-! ### Writing over an element -/

/-- The list with another value in a slot. -/
def overwrite (list : LinkedList α) (slot : Nat) (value : α) : LinkedList α :=
  { list with nodes := list.nodes.modify slot ({ · with value := some value }) }

theorem order_overwrite (list : LinkedList α) (slot : Nat) (value : α) :
    (list.overwrite slot value).order = list.order := by
  have hlinks : (list.overwrite slot value).nodes.map Node.link = list.nodes.map Node.link := by
    apply Array.ext_getElem?
    intro other
    rw [overwrite, Array.getElem?_map, Array.getElem?_map, Array.getElem?_modify]
    split
    · cases list.nodes[other]? <;> rfl
    · rfl
  exact congrArg (Recency.mk · list.head list.tail list.length) hlinks

theorem nodes_overwrite {other : Nat} (hdistinct : slot ≠ other) :
    (list.overwrite slot value).nodes[other]? = list.nodes[other]? := by
  rw [overwrite, Array.getElem?_modify, if_neg hdistinct]

theorem Layout.overwrite (hlayout : list.Layout (front ++ (slot, value) :: back) free)
    (replacement : α) :
    (list.overwrite slot replacement).Layout (front ++ (slot, replacement) :: back) free := by
  have hslots : (front ++ (slot, replacement) :: back).map Prod.fst =
      (front ++ (slot, value) :: back).map Prod.fst := by
    simp
  have hnodup := (slots_perm_middle front back slot value free).nodup_iff.mp hlayout.nodup
  have hunused := not_mem_of_nodup hnodup
  have hsize : (list.overwrite slot replacement).nodes.size = list.nodes.size :=
    Array.size_modify
  have hbound : slot < list.nodes.size := hlayout.mem_slots_iff.mp (by simp)
  exact {
    order := by
      rw [hslots, order_overwrite]
      exact hlayout.order
    stored := by
      intro other stored hstored
      rcases List.mem_cons.mp (List.perm_middle.mem_iff.mp hstored) with heq | hkept
      · obtain ⟨rfl, rfl⟩ := Prod.mk.inj heq
        rw [LinkedList.overwrite, valueAt?, Option.bind_some, Array.getElem?_modify, if_pos rfl,
          Array.getElem?_eq_getElem hbound]
        rfl
      · have hdistinct : slot ≠ other := fun heq => hunused (heq ▸ List.mem_map_of_mem hkept)
        rw [valueAt?_congr (nodes_overwrite hdistinct)]
        exact hlayout.stored other stored (mem_middle_of_mem hkept)
    free_eq := hlayout.free_eq
    vacant := by
      apply hlayout.vacant.congr
      intro other hother
      exact nodes_overwrite (untouched_of_nodup hnodup hother).1
    slots_perm := by
      rw [hslots, hsize]
      exact hlayout.slots_perm }

theorem Layout.replaceAt (hlayout : list.Layout (front ++ (slot, value) :: back) free)
    (replacement : α) :
    list.replaceAt (some slot) replacement = (true, list.overwrite slot replacement) := by
  have hstored : list.valueAt? (some slot) = some value := hlayout.stored slot value (by simp)
  simp only [LinkedList.replaceAt, hstored]
  rfl

end Changes

end LinkedList

end Collections
