import Mathlib
import Collections.Proofs.Sequence.LinkedRuns

/-!
# Slots that a linked list refers to

A linked list refers to a slot by one of its own fields or by a link of one of its nodes.  No
call and no walk comes to a slot in any other way: whatever node stands in a slot that the list
does not refer to, they do the same and leave it there.
-/

namespace Collections

universe u

namespace LinkedList

variable {α : Type u}

/-- The slots that a list refers to, by its own fields or by the links of its nodes.  No call
reads or changes another one. -/
inductive Refers (list : LinkedList α) : Nat → Prop
  | head {slot : Nat} (hslot : list.head = some slot) : Refers list slot
  | tail {slot : Nat} (hslot : list.tail = some slot) : Refers list slot
  | free {slot : Nat} (hslot : list.free = some slot) : Refers list slot
  | next {origin slot : Nat} (hslot : list.nextOf origin = some slot) : Refers list slot
  | previous {origin slot : Nat} (hslot : list.previousOf origin = some slot) : Refers list slot

/-- The list with another node in a slot. -/
def disturb (list : LinkedList α) (slot : Nat) (node : Node α) : LinkedList α :=
  { list with nodes := list.nodes.setIfInBounds slot node }

variable (list : LinkedList α) {slot other : Nat} (node : Node α)

/-! ## Single nodes -/

section Nodes

@[simp]
theorem head_disturb : (list.disturb slot node).head = list.head := rfl

@[simp]
theorem tail_disturb : (list.disturb slot node).tail = list.tail := rfl

theorem nextOf_disturb (hother : slot ≠ other) :
    (list.disturb slot node).nextOf other = list.nextOf other := by
  rw [nextOf, disturb, Array.getElem?_setIfInBounds_ne hother, nextOf]

theorem previousOf_disturb (hother : slot ≠ other) :
    (list.disturb slot node).previousOf other = list.previousOf other := by
  rw [previousOf, disturb, Array.getElem?_setIfInBounds_ne hother, previousOf]

theorem valueAt?_disturb {place : Option Nat} (hplace : place ≠ some slot) :
    (list.disturb slot node).valueAt? place = list.valueAt? place := by
  cases place with
  | none => rfl
  | some other =>
      have hother : slot ≠ other := ne_of_apply_ne some hplace.symm
      exact valueAt?_congr (Array.getElem?_setIfInBounds_ne hother)

theorem linkForward_disturb {before : Option Nat} (hbefore : before ≠ some slot)
    (target : Option Nat) :
    (list.disturb slot node).linkForward before target =
      (list.linkForward before target).disturb slot node := by
  cases before with
  | none => rfl
  | some other =>
      have hother : slot ≠ other := ne_of_apply_ne some hbefore.symm
      exact congrArg (LinkedList.mk · list.head list.tail list.free list.length)
        (modify_setIfInBounds list.nodes hother node _)

theorem linkBackward_disturb {after : Option Nat} (hafter : after ≠ some slot)
    (target : Option Nat) :
    (list.disturb slot node).linkBackward after target =
      (list.linkBackward after target).disturb slot node := by
  cases after with
  | none => rfl
  | some other =>
      have hother : slot ≠ other := ne_of_apply_ne some hafter.symm
      exact congrArg (LinkedList.mk · list.head list.tail list.free list.length)
        (modify_setIfInBounds list.nodes hother node _)

theorem replaceAt_disturb {place : Option Nat} (hplace : place ≠ some slot) (value : α) :
    (list.disturb slot node).replaceAt place value =
      ((list.replaceAt place value).1, (list.replaceAt place value).2.disturb slot node) := by
  unfold replaceAt
  rw [valueAt?_disturb list node hplace]
  cases place with
  | none => rfl
  | some other =>
      have hother : slot ≠ other := ne_of_apply_ne some hplace.symm
      cases list.valueAt? (some other) with
      | none => rfl
      | some replaced =>
          exact congrArg (fun nodes => (true, { list with nodes := nodes }))
            (modify_setIfInBounds list.nodes hother node _)

end Nodes

variable {list}

theorem head_ne (hunreferred : ¬ list.Refers slot) : list.head ≠ some slot :=
  fun heq => hunreferred (.head heq)

theorem tail_ne (hunreferred : ¬ list.Refers slot) : list.tail ≠ some slot :=
  fun heq => hunreferred (.tail heq)

theorem nextOf_ne (hunreferred : ¬ list.Refers slot) (origin : Nat) :
    list.nextOf origin ≠ some slot :=
  fun heq => hunreferred (.next heq)

theorem previousOf_ne (hunreferred : ¬ list.Refers slot) (origin : Nat) :
    list.previousOf origin ≠ some slot :=
  fun heq => hunreferred (.previous heq)

/-! ## New nodes -/

section Pushes

theorem allocate_disturb (hunreferred : ¬ list.Refers slot) (hbound : slot < list.nodes.size)
    (placed : Node α) :
    (list.disturb slot node).allocate placed =
      ((list.allocate placed).1, (list.allocate placed).2.disturb slot node) := by
  obtain ⟨nodes, head, tail, free, length⟩ := list
  cases free with
  | none =>
      apply Prod.ext
      · exact Array.size_setIfInBounds
      · exact congrArg (LinkedList.mk · head tail none length)
          (push_setIfInBounds nodes (Nat.ne_of_lt hbound) node placed)
  | some first =>
      have hother : slot ≠ first := fun heq => hunreferred (.free (congrArg some heq.symm))
      have hnext := nextOf_disturb ⟨nodes, head, tail, some first, length⟩ node hother
      exact congrArg₂ (fun nodes free => (first, LinkedList.mk nodes head tail free length))
        (Array.setIfInBounds_comm node placed hother) hnext

theorem pushFront_disturb (hunreferred : ¬ list.Refers slot) (hbound : slot < list.nodes.size)
    (value : α) :
    (list.disturb slot node).pushFront value = (list.pushFront value).disturb slot node := by
  rw [pushFront, pushFront, head_disturb, allocate_disturb node hunreferred hbound]
  dsimp only
  rw [linkBackward_disturb _ node (head_ne hunreferred)]
  rfl

theorem pushBack_disturb (hunreferred : ¬ list.Refers slot) (hbound : slot < list.nodes.size)
    (value : α) :
    (list.disturb slot node).pushBack value = (list.pushBack value).disturb slot node := by
  rw [pushBack, pushBack, tail_disturb, allocate_disturb node hunreferred hbound]
  dsimp only
  rw [linkForward_disturb _ node (tail_ne hunreferred)]
  rfl

theorem allocate_ne (hunreferred : ¬ list.Refers slot) (hbound : slot < list.nodes.size)
    (placed : Node α) : slot ≠ (list.allocate placed).1 := by
  intro heq
  rw [allocate] at heq
  cases hfree : list.free with
  | none =>
      rw [hfree] at heq
      exact Nat.ne_of_lt hbound heq
  | some first =>
      rw [hfree] at heq
      exact hunreferred (.free (hfree.trans (congrArg some heq.symm)))

/-- No field and no node leads to a slot that the list does not refer to. -/
theorem not_refers_iff : ¬ list.Refers slot ↔
    list.head ≠ some slot ∧ list.tail ≠ some slot ∧ list.free ≠ some slot ∧
      ∀ linked ∈ list.nodes, linked.next ≠ some slot ∧ linked.previous ≠ some slot := by
  constructor
  · intro hunreferred
    refine ⟨head_ne hunreferred, tail_ne hunreferred, fun heq => hunreferred (.free heq), ?_⟩
    intro linked hlinked
    obtain ⟨origin, horigin⟩ := Array.mem_iff_getElem?.mp hlinked
    have hnext := nextOf_ne hunreferred origin
    have hprevious := previousOf_ne hunreferred origin
    rw [nextOf, horigin] at hnext
    rw [previousOf, horigin] at hprevious
    exact ⟨hnext, hprevious⟩
  · rintro ⟨hhead, htail, hfree, hlinks⟩ hrefers
    cases hrefers with
    | head heq => exact hhead heq
    | tail heq => exact htail heq
    | free heq => exact hfree heq
    | next heq =>
        obtain ⟨linked, hlinked, heq⟩ := Option.bind_eq_some_iff.mp heq
        exact (hlinks linked (Array.mem_of_getElem? hlinked)).1 heq
    | previous heq =>
        obtain ⟨linked, hlinked, heq⟩ := Option.bind_eq_some_iff.mp heq
        exact (hlinks linked (Array.mem_of_getElem? hlinked)).2 heq

theorem not_refers_allocate (hunreferred : ¬ list.Refers slot) {placed : Node α}
    (hnext : placed.next ≠ some slot) (hprevious : placed.previous ≠ some slot) :
    ¬ (list.allocate placed).2.Refers slot := by
  have hleads := nextOf_ne hunreferred
  rw [not_refers_iff] at hunreferred ⊢
  obtain ⟨hhead, htail, hfree, hlinks⟩ := hunreferred
  rw [allocate]
  cases hfirst : list.free with
  | none =>
      rw [hfirst] at hfree
      refine ⟨hhead, htail, hfree, fun linked hlinked => ?_⟩
      rcases Array.mem_push.mp hlinked with hkept | rfl
      · exact hlinks linked hkept
      · exact ⟨hnext, hprevious⟩
  | some first =>
      refine ⟨hhead, htail, hleads first, fun linked hlinked => ?_⟩
      rcases Array.mem_or_eq_of_mem_setIfInBounds hlinked with hkept | rfl
      · exact hlinks linked hkept
      · exact ⟨hnext, hprevious⟩

theorem not_refers_linkForward (hunreferred : ¬ list.Refers slot) (before : Option Nat)
    {target : Option Nat} (htarget : target ≠ some slot) :
    ¬ (list.linkForward before target).Refers slot := by
  rw [not_refers_iff] at hunreferred ⊢
  obtain ⟨hhead, htail, hfree, hlinks⟩ := hunreferred
  cases before with
  | none => exact ⟨htarget, htail, hfree, hlinks⟩
  | some changed =>
      refine ⟨hhead, htail, hfree, fun linked hlinked => ?_⟩
      obtain ⟨origin, horigin⟩ := Array.mem_iff_getElem?.mp hlinked
      rw [linkForward, Array.getElem?_modify] at horigin
      split at horigin
      · obtain ⟨kept, hkept, rfl⟩ := Option.map_eq_some_iff.mp horigin
        exact ⟨htarget, (hlinks kept (Array.mem_of_getElem? hkept)).2⟩
      · exact hlinks linked (Array.mem_of_getElem? horigin)

theorem not_refers_pushBack (hunreferred : ¬ list.Refers slot) (hbound : slot < list.nodes.size)
    (value : α) : ¬ (list.pushBack value).Refers slot := by
  have hfresh := allocate_ne hunreferred hbound ⟨some value, list.tail, none⟩
  have hlast : some (list.allocate ⟨some value, list.tail, none⟩).1 ≠ some slot := fun heq =>
    hfresh (Option.some.inj heq).symm
  have hallocated : ¬ (list.allocate ⟨some value, list.tail, none⟩).2.Refers slot :=
    not_refers_allocate hunreferred (Option.some_ne_none slot).symm (tail_ne hunreferred)
  have hlinked := not_refers_iff.mp (not_refers_linkForward hallocated list.tail hlast)
  exact not_refers_iff.mpr ⟨hlinked.1, hlast, hlinked.2.2⟩

theorem size_le_pushBack (list : LinkedList α) (value : α) :
    list.nodes.size ≤ (list.pushBack value).nodes.size := by
  rw [pushBack, allocate]
  cases list.free with
  | none => simp
  | some first => simp

theorem extend_disturb (values : List α) :
    ∀ {list : LinkedList α}, ¬ list.Refers slot → slot < list.nodes.size →
      (list.disturb slot node).extend values = (list.extend values).disturb slot node := by
  induction values with
  | nil => exact fun _ _ => rfl
  | cons value values ih =>
      intro list hunreferred hbound
      have hgrown := ih (not_refers_pushBack hunreferred hbound value)
        (Nat.lt_of_lt_of_le hbound (size_le_pushBack list value))
      rw [← pushBack_disturb node hunreferred hbound value] at hgrown
      exact hgrown

end Pushes

/-! ## Nodes that are taken out -/

section Releases

theorem release_disturb (hunreferred : ¬ list.Refers slot) (hother : slot ≠ other) :
    (list.disturb slot node).release other =
      ((list.release other).1, (list.release other).2.disturb slot node) := by
  have hvalue : (list.disturb slot node).valueAt? (some other) = list.valueAt? (some other) :=
    valueAt?_disturb list node fun heq => hother (Option.some.inj heq).symm
  rw [release, release, hvalue, nextOf_disturb list node hother,
    previousOf_disturb list node hother,
    linkForward_disturb list node (previousOf_ne hunreferred other),
    linkBackward_disturb _ node (nextOf_ne hunreferred other)]
  exact congrArg (fun nodes => (list.valueAt? (some other), LinkedList.mk nodes _ _ _ _))
    (Array.setIfInBounds_comm node _ hother)

theorem popFront_disturb (hunreferred : ¬ list.Refers slot) :
    (list.disturb slot node).popFront =
      (list.popFront.1, list.popFront.2.disturb slot node) := by
  rw [popFront, popFront, head_disturb]
  cases hfirst : list.head with
  | none => rfl
  | some first =>
      exact release_disturb node hunreferred fun heq => head_ne hunreferred (heq ▸ hfirst)

theorem popBack_disturb (hunreferred : ¬ list.Refers slot) :
    (list.disturb slot node).popBack = (list.popBack.1, list.popBack.2.disturb slot node) := by
  rw [popBack, popBack, tail_disturb]
  cases hlast : list.tail with
  | none => rfl
  | some last =>
      exact release_disturb node hunreferred fun heq => tail_ne hunreferred (heq ▸ hlast)

variable [BEq α]

/-- A search comes to slots that the list refers to only. -/
theorem findFrom?_disturb (hunreferred : ¬ list.Refers slot) (value : α) (count : Nat) :
    ∀ {place : Option Nat}, place ≠ some slot →
      (list.disturb slot node).findFrom? value count place =
          list.findFrom? value count place ∧
        list.findFrom? value count place ≠ some slot := by
  induction count with
  | zero => exact fun _ => ⟨rfl, Option.some_ne_none slot |>.symm⟩
  | succ count ih =>
      intro place hplace
      cases place with
      | none => exact ⟨rfl, hplace⟩
      | some other =>
          have hother : slot ≠ other := ne_of_apply_ne some hplace.symm
          rw [findFrom?, findFrom?, valueAt?_disturb list node hplace,
            nextOf_disturb list node hother]
          split
          · exact ⟨rfl, hplace⟩
          · exact ih (nextOf_ne hunreferred other)

theorem remove_disturb (hunreferred : ¬ list.Refers slot) (value : α) :
    (list.disturb slot node).remove value =
      ((list.remove value).1, (list.remove value).2.disturb slot node) := by
  obtain ⟨hfound, hunmet⟩ :=
    findFrom?_disturb node hunreferred value list.length (head_ne hunreferred)
  have hsearch : (list.disturb slot node).findFrom? value (list.disturb slot node).length
      (list.disturb slot node).head = list.findFrom? value list.length list.head := hfound
  rw [remove, remove, hsearch]
  cases hmatch : list.findFrom? value list.length list.head with
  | none => rfl
  | some found =>
      have hother : slot ≠ found := fun heq => hunmet (heq ▸ hmatch)
      dsimp only
      rw [release_disturb node hunreferred hother]

end Releases

/-! ## Calls and walks -/

/-- The values are met in slots that the list refers to only. -/
theorem valuesFrom_disturb (hunreferred : ¬ list.Refers slot) (count : Nat) :
    ∀ {place : Option Nat}, place ≠ some slot →
      (list.disturb slot node).valuesFrom count place = list.valuesFrom count place := by
  induction count with
  | zero => exact fun _ => rfl
  | succ count ih =>
      intro place hplace
      cases place with
      | none => rfl
      | some other =>
          have hother : slot ≠ other := ne_of_apply_ne some hplace.symm
          rw [valuesFrom, valuesFrom, valueAt?_disturb list node hplace,
            nextOf_disturb list node hother, ih (nextOf_ne hunreferred other)]

theorem toList_disturb (hunreferred : ¬ list.Refers slot) :
    (list.disturb slot node).toList = list.toList := by
  have hvalues := valuesFrom_disturb node hunreferred list.length (head_ne hunreferred)
  exact hvalues

/-- A call does the same whatever stands in a slot that the list does not refer to, and leaves
it there. -/
theorem perform_disturb [BEq α] (hunreferred : ¬ list.Refers slot)
    (hbound : slot < list.nodes.size) (call : LinkedCall α) :
    (list.disturb slot node).perform call =
      ((list.perform call).1, (list.perform call).2.disturb slot node) := by
  cases call with
  | pushFront value => rw [perform, perform, pushFront_disturb node hunreferred hbound]
  | pushBack value => rw [perform, perform, pushBack_disturb node hunreferred hbound]
  | popFront => rw [perform, perform, popFront_disturb node hunreferred]
  | popBack => rw [perform, perform, popBack_disturb node hunreferred]
  | remove value => rw [perform, perform, remove_disturb node hunreferred]
  | replaceFront value =>
      exact congrArg (Prod.map LinkedAnswer.told id)
        (replaceAt_disturb list node (head_ne hunreferred) value)
  | replaceBack value =>
      exact congrArg (Prod.map LinkedAnswer.told id)
        (replaceAt_disturb list node (tail_ne hunreferred) value)
  | extend values => rw [perform, perform, extend_disturb node values hunreferred hbound]
  | clear => rfl

namespace Walk

/-- A walk over a list with another node in a slot. -/
def disturb (walk : Walk α) (slot : Nat) (node : Node α) : Walk α :=
  { walk with list := walk.list.disturb slot node }

/-- No step of a walk can come to a slot. -/
structure Avoids (walk : Walk α) (slot : Nat) : Prop where
  unreferred : ¬ walk.list.Refers slot
  front_ne : walk.front ≠ some slot
  back_ne : walk.back ≠ some slot

theorem Avoids.next {walk : Walk α} (havoids : walk.Avoids slot) :
    (walk.disturb slot node).next = (walk.next.1, walk.next.2.disturb slot node) ∧
      walk.next.2.Avoids slot := by
  obtain ⟨list, front, back, remaining⟩ := walk
  obtain ⟨hunreferred, hfront, hback⟩ := havoids
  cases remaining with
  | zero => exact ⟨rfl, hunreferred, hfront, hback⟩
  | succ remaining =>
      cases front with
      | none => exact ⟨rfl, hunreferred, hfront, hback⟩
      | some first =>
          have hother : slot ≠ first := ne_of_apply_ne some hfront.symm
          refine ⟨?_, hunreferred, nextOf_ne hunreferred first, hback⟩
          exact congrArg₂ (fun value front => (value, Walk.mk _ front back remaining))
            (valueAt?_disturb list node hfront) (nextOf_disturb list node hother)

theorem Avoids.nextBack {walk : Walk α} (havoids : walk.Avoids slot) :
    (walk.disturb slot node).nextBack = (walk.nextBack.1, walk.nextBack.2.disturb slot node) ∧
      walk.nextBack.2.Avoids slot := by
  obtain ⟨list, front, back, remaining⟩ := walk
  obtain ⟨hunreferred, hfront, hback⟩ := havoids
  cases remaining with
  | zero => exact ⟨rfl, hunreferred, hfront, hback⟩
  | succ remaining =>
      cases back with
      | none => exact ⟨rfl, hunreferred, hfront, hback⟩
      | some last =>
          have hother : slot ≠ last := ne_of_apply_ne some hback.symm
          refine ⟨?_, hunreferred, hfront, previousOf_ne hunreferred last⟩
          exact congrArg₂ (fun value back => (value, Walk.mk _ front back remaining))
            (valueAt?_disturb list node hback) (previousOf_disturb list node hother)

theorem Avoids.take {walk : Walk α} (havoids : walk.Avoids slot) (side : SequenceEnd) :
    DoubleEndedCursor.take side (walk.disturb slot node) =
        ((DoubleEndedCursor.take side walk).1,
          (DoubleEndedCursor.take side walk).2.disturb slot node) ∧
      (DoubleEndedCursor.take side walk).2.Avoids slot := by
  cases side with
  | front => exact havoids.next node
  | back => exact havoids.nextBack node

theorem Avoids.calls (pattern : List SequenceEnd) :
    ∀ {walk : Walk α}, walk.Avoids slot →
      DoubleEndedCursor.calls pattern (walk.disturb slot node) =
        DoubleEndedCursor.calls pattern walk := by
  induction pattern with
  | nil => exact fun _ => rfl
  | cons side pattern ih =>
      intro walk havoids
      obtain ⟨htaken, hrest⟩ := havoids.take node side
      rw [DoubleEndedCursor.calls, DoubleEndedCursor.calls, htaken]
      dsimp only
      rw [ih hrest]
      rfl

end Walk

/-- A walk yields the same in any pattern of calls, whatever stands in a slot that the list does
not refer to. -/
theorem calls_walk_disturb (hunreferred : ¬ list.Refers slot) (pattern : List SequenceEnd) :
    DoubleEndedCursor.calls pattern (list.disturb slot node).walk =
      DoubleEndedCursor.calls pattern list.walk := by
  have havoids : list.walk.Avoids slot :=
    ⟨hunreferred, head_ne hunreferred, tail_ne hunreferred⟩
  exact havoids.calls node pattern

end LinkedList

end Collections
