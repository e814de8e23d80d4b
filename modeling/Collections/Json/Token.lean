import Collections.Json.Fault

/-!
# JSON tokens

A text is cut into tokens before it is read.  Some tokens mean different things
to a reader that wants their value and to one that only passes over them: a
number can be too large, and an escape can be half of a character.  Such tokens
carry both outcomes.
-/

namespace Collections.Json

inductive Bracket where
  | list
  | object
  deriving DecidableEq, Repr

/-- The end of the text inside a bracket. -/
def Bracket.unfinished : Bracket → Fault
  | .list => .unfinished .list
  | .object => .unfinished .object

/-- A token after an item that neither goes on nor closes the bracket. -/
def Bracket.unclosed : Bracket → Fault
  | .list => .expectedCommaOrListEnd
  | .object => .expectedCommaOrObjectEnd

/-- The value of a number: an integer where it fits 64 bits, unsigned or signed,
and a double otherwise. -/
inductive Number where
  | natural (value : UInt64)
  | negative (value : Int64)
  | floating (value : Float)

def Number.found : Number → Found
  | .natural value => .integer value.toNat
  | .negative value => .integer value.toInt
  | .floating value => .floating value

inductive Token where
  | opening (bracket : Bracket)
  | closing (bracket : Bracket)
  | comma
  | colon
  | null
  | boolean (value : Bool)
  /-- A number: its value, and what is wrong with its form. -/
  | number (value : Except Fault Number) (malformed : Option Fault)
  /-- A text: its characters, and what is wrong with its form. -/
  | text (value : Except Fault String) (malformed : Option Fault)
  /-- The beginning of a word that is not finished as it should be. -/
  | broken (fault : Fault)
  /-- A character that no token starts with. -/
  | stray

/-- What is reported when a token stands where a value of another kind is expected. -/
def Token.mismatch (token : Token) (expected : String) : Fault :=
  match token with
  | .null => .wrongType .null expected
  | .boolean value => .wrongType (.boolean value) expected
  | .number (.ok value) _ => .wrongType value.found expected
  | .number (.error fault) _ => fault
  | .text (.ok value) _ => .wrongType (.text value) expected
  | .text (.error fault) _ => fault
  | .opening .list => .wrongType .sequence expected
  | .opening .object => .wrongType .map expected
  | .broken fault => fault
  | .closing _ | .comma | .colon | .stray => .expectedValue

end Collections.Json
