import Collections.Text.Quoted

/-!
# Literals

Every value that a description or a fault can mention has one written form, its
literal.  Collections write theirs from the literals of what they hold: lists in
brackets, maps in braces, pairs in parentheses.
-/

namespace Collections

universe u v

/-- Values that can be written into a message. -/
class Literal (α : Type u) where
  literal : α → String

export Literal (literal)

namespace Literal

variable {α : Type u} {β : Type v}

instance : Literal String := ⟨Text.quoted⟩

instance : Literal Nat := ⟨toString⟩

instance : Literal Int := ⟨toString⟩

instance : Literal UInt64 := ⟨fun value => toString value.toNat⟩

instance : Literal UInt8 := ⟨fun value => toString value.toNat⟩

instance : Literal Int64 := ⟨fun value => toString value.toInt⟩

instance {width : Nat} : Literal (BitVec width) := ⟨fun value => toString value.toNat⟩

instance : Literal Bool := ⟨fun value => if value then "true" else "false"⟩

instance : Literal Unit := ⟨fun _ => "()"⟩

instance [Literal α] [Literal β] : Literal (α × β) :=
  ⟨fun pair => "(" ++ literal pair.1 ++ ", " ++ literal pair.2 ++ ")"⟩

/-- The items in order, between brackets. -/
def list [Literal α] (items : List α) : String :=
  "[" ++ ", ".intercalate (items.map literal) ++ "]"

/-- The entries in order, each as key and value, between braces. -/
def map [Literal α] [Literal β] (entries : List (α × β)) : String :=
  "\x7b" ++ ", ".intercalate (entries.map fun entry => literal entry.1 ++ ": " ++ literal entry.2)
    ++ "\x7d"

/-- A record: its name and its fields, whose values are already written. -/
def record (name : String) (fields : List (String × String)) : String :=
  name ++ " \x7b " ++ ", ".intercalate (fields.map fun field => field.1 ++ ": " ++ field.2) ++ " \x7d"

instance [Literal α] : Literal (List α) := ⟨list⟩

instance [Literal α] : Literal (Array α) := ⟨fun items => list items.toList⟩

end Literal

end Collections
