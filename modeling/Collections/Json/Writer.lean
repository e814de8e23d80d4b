import Collections.Json.Record

/-!
# Writing a record

A record is written as an object with one field on each line, indented by two
blanks, in the order of the fields.
-/

namespace Collections.Json

def writeValue : (kind : FieldKind) → kind.Value → List Char
  | .count, value => Nat.toDigits 10 value.toNat
  | .flag, true => ['t', 'r', 'u', 'e']
  | .flag, false => ['f', 'a', 'l', 's', 'e']

/-- A name between quotes.  Names of fields need no escapes. -/
def writeName (name : String) : List Char :=
  ['"'] ++ name.toList ++ ['"']

/-- The lines of the fields, without their ends. -/
def writeFields : (fields : List Field) → Record fields → List (List Char)
  | [], _ => []
  | field :: fields, record =>
    ([' ', ' '] ++ writeName field.name ++ [':', ' '] ++ writeValue field.kind record.1)
      :: writeFields fields record.2

def writeRecord (schema : Schema) (record : Record schema.fields) : String :=
  String.ofList
    (['\x7b', '\n'] ++ [',', '\n'].intercalate (writeFields schema.fields record) ++ ['\n', '\x7d'])

end Collections.Json
