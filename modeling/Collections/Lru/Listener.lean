/-!
# Listeners

Someone who is told of every entry that a cache drops to make room.
-/

namespace Collections

universe u v w

class EvictionListener (ε : Type u) (κ : Type v) (ν : Type w) where
  /-- The listener after it was told of a dropped entry. -/
  onEvict : ε → κ → ν → ε

/-- The listener of a cache that nobody listens to. -/
inductive NoListener where
  | silent
  deriving DecidableEq, Repr

instance {κ : Type v} {ν : Type w} : EvictionListener NoListener κ ν where
  onEvict listener _ _ := listener

/-- A listener that remembers what it was told, oldest first. -/
structure EvictionRecord (κ : Type v) (ν : Type w) where
  entries : Array (κ × ν)
  deriving Repr

namespace EvictionRecord

variable {κ : Type v} {ν : Type w}

def empty : EvictionRecord κ ν :=
  ⟨#[]⟩

def toList (record : EvictionRecord κ ν) : List (κ × ν) :=
  record.entries.toList

instance : EvictionListener (EvictionRecord κ ν) κ ν where
  onEvict record key value := ⟨record.entries.push (key, value)⟩

end EvictionRecord

end Collections
