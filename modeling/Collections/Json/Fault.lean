import Collections.Decimal.Layout
import Collections.Literal

/-!
# Faults of a JSON reader

A reader reports the first thing that is wrong: either the text is not JSON, or
it is, and the value found is not the one expected.
-/

namespace Collections.Json

/-- Numbers are shown positionally while their first digit stands for a power of
ten from `-5` to `15`, otherwise with an exponent of at least two digits. -/
def numberLayout : Decimal.Layout := ⟨-5, 15, 2⟩

/-- What was met in the place of an expected value. -/
inductive Found where
  | null
  | boolean (value : Bool)
  | integer (value : Int)
  | floating (value : Float)
  | text (value : String)
  | sequence
  | map

def Found.describe : Found → String
  | .null => "null"
  | .boolean value => "boolean `" ++ literal value ++ "`"
  | .integer value => "integer `" ++ literal value ++ "`"
  | .floating value => "floating point `" ++ numberLayout.writeDouble value ++ "`"
  | .text value => "string " ++ literal value
  | .sequence => "sequence"
  | .map => "map"

/-- Where the text ended too early. -/
inductive Unfinished where
  | value
  | list
  | object
  | text
  deriving DecidableEq

def Unfinished.describe : Unfinished → String
  | .value => "a value"
  | .list => "a list"
  | .object => "an object"
  | .text => "a string"

inductive Fault where
  | unfinished (inside : Unfinished)
  | expectedValue
  | expectedWord
  | expectedColon
  | expectedCommaOrListEnd
  | expectedCommaOrObjectEnd
  | keyNotText
  | malformedNumber
  | numberTooLarge
  | malformedEscape
  | loneSurrogate
  | unfinishedSurrogatePair
  | controlCharacter
  | trailingComma
  | trailingCharacters
  | wrongType (found : Found) (expected : String)
  | wrongValue (found : Found) (expected : String)
  | missingField (name : String)
  | duplicateField (name : String)
  | tooShort (length : Nat) (expected : String)
  | unknownVariant (found : String) (variants : List String)

/-- The names in backquotes, as alternatives of each other. -/
def alternatives (names : List String) : String :=
  let quotedNames := names.map fun name => "`" ++ name ++ "`"
  match quotedNames with
  | [first, second] => first ++ " or " ++ second
  | _ => "one of " ++ ", ".intercalate quotedNames

def Fault.message : Fault → String
  | .unfinished inside => "EOF while parsing " ++ inside.describe
  | .expectedValue => "expected value"
  | .expectedWord => "expected ident"
  | .expectedColon => "expected `:`"
  | .expectedCommaOrListEnd => "expected `,` or `]`"
  | .expectedCommaOrObjectEnd => "expected `,` or `\x7d`"
  | .keyNotText => "key must be a string"
  | .malformedNumber => "invalid number"
  | .numberTooLarge => "number out of range"
  | .malformedEscape => "invalid escape"
  | .loneSurrogate => "lone leading surrogate in hex escape"
  | .unfinishedSurrogatePair => "unexpected end of hex escape"
  | .controlCharacter => "control character (\\u0000-\\u001F) found while parsing a string"
  | .trailingComma => "trailing comma"
  | .trailingCharacters => "trailing characters"
  | .wrongType found expected => "invalid type: " ++ found.describe ++ ", expected " ++ expected
  | .wrongValue found expected => "invalid value: " ++ found.describe ++ ", expected " ++ expected
  | .missingField name => "missing field `" ++ name ++ "`"
  | .duplicateField name => "duplicate field `" ++ name ++ "`"
  | .tooShort length expected => "invalid length " ++ literal length ++ ", expected " ++ expected
  | .unknownVariant found variants =>
    "unknown variant `" ++ found ++ "`, expected " ++ alternatives variants

end Collections.Json
