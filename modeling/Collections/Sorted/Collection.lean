import Collections.Sorted.List

/-!
# Sorted collections

What every sorted collection offers, whether it is held by one owner or shared.
Each changing operation is a step, so that it can be taken under a lock as a whole.
-/

namespace Collections

universe u v

class SortedCollection (σ : Type u) (α : outParam (Type v)) where
  length : σ → Nat
  direction : σ → Direction
  get : σ → Nat → Except Fault α
  find? : σ → α → Option Nat
  insert : σ → α → Step σ Nat
  set : σ → Nat → α → Step σ (Except Fault Nat)
  remove : σ → α → Step σ Bool
  removeAt : σ → Nat → Step σ (Except Fault α)
  reverse : σ → Step σ Unit
  clear : σ → Step σ Unit

namespace SortedCollection

variable {σ : Type u} {α : Type v} [SortedCollection σ α]

def isEmpty (collection : σ) : Bool :=
  length collection == 0

def contains (collection : σ) (item : α) : Bool :=
  (find? collection item).isSome

end SortedCollection

instance {α : Type u} [Ord α] : SortedCollection (SortedList α) α where
  length := SortedList.length
  direction := SortedList.direction
  get := SortedList.get
  find? := SortedList.find?
  insert list item := .ofPair (list.insert item)
  set := SortedList.set
  remove list item := .ofPair (list.remove item)
  removeAt list index := .ofPair (list.removeAt index)
  reverse list := .quiet list.reverse ()
  clear list := .quiet list.clear ()

end Collections
