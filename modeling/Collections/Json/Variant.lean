import Collections.Json.Scanner

/-!
# Reading a variant

One of a fixed set of names, written as a text, or as an object whose only key is
the name and whose value is null.
-/

namespace Collections.Json

/-- Accepts the end of the text. -/
def atEnd {α : Type} (value : α) : List Token → Except Fault α
  | [] => .ok value
  | _ :: _ => .error .trailingCharacters

/-- The variant of a name. -/
def variantNamed {α : Type} (variants : List (String × α)) (name : String) : Except Fault α :=
  match variants.find? fun variant => variant.1 == name with
  | some variant => .ok variant.2
  | none => .error (.unknownVariant name (variants.map Prod.fst))

/-- Reads what follows the name of a variant in an object. -/
def readUnit {α : Type} (value : α) : List Token → Except Fault α
  | [] => .error (.unfinished .object)
  | .colon :: [] => .error (.unfinished .value)
  | .colon :: .null :: [] => .error (.unfinished .object)
  | .colon :: .null :: .closing .object :: rest => atEnd value rest
  | .colon :: .null :: _ => .error .expectedValue
  | .colon :: token :: _ => .error (token.mismatch "unit")
  | _ => .error .expectedColon

/-- Reads the variant that a text holds. -/
def readVariant {α : Type} (variants : List (String × α)) (text : String) : Except Fault α :=
  match tokens text.toList with
  | [] => .error (.unfinished .value)
  | .text (.error fault) _ :: _ => .error fault
  | .text (.ok name) _ :: rest =>
    match variantNamed variants name with
    | .ok value => atEnd value rest
    | .error fault => .error fault
  | .opening .object :: [] => .error (.unfinished .value)
  | .opening .object :: .text (.error fault) _ :: _ => .error fault
  | .opening .object :: .text (.ok name) _ :: rest =>
    match variantNamed variants name with
    | .ok value => readUnit value rest
    | .error fault => .error fault
  | .opening .object :: token :: _ => .error (token.mismatch "variant identifier")
  | _ => .error .expectedValue

end Collections.Json
