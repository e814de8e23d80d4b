import Collections.Fault

/-!
# Memory for tables

A table asks for all its memory at once, and the request can be refused.  Which
requests are refused is not known beforehand, so it is a parameter of every
operation that allocates.
-/

namespace Collections

universe u

/-- The number of bytes that a value of a type takes in a table. -/
class ByteSize (α : Type u) where
  byteSize : UInt64

instance : ByteSize Bool := ⟨1⟩

instance : ByteSize UInt8 := ⟨1⟩

instance : ByteSize Int64 := ⟨8⟩

instance : ByteSize (BitVec 128) := ⟨16⟩

instance : ByteSize String := ⟨24⟩

instance : ByteSize Unit := ⟨0⟩

/-- What a table holds for each pair of vertices. -/
inductive TableContent where
  | presence
  | costs
  deriving DecidableEq, Repr

/-- Which requests for a number of bytes are granted. -/
structure Memory where
  grants : TableContent → UInt64 → Bool

namespace Memory

/-- Grants every request. -/
def unlimited : Memory :=
  ⟨fun _ _ => true⟩

/-- Grants the requests for fewer bytes than a limit. -/
def below (limit : UInt64) : Memory :=
  ⟨fun _ bytes => bytes < limit⟩

/-- A request for nothing needs no grant. -/
def request (memory : Memory) (content : TableContent) (bytes : UInt64) : Except Fault Unit :=
  if bytes = 0 ∨ memory.grants content bytes then .ok () else .error (.outOfMemory bytes)

end Memory

end Collections
