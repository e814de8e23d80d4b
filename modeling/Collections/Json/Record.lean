import Collections.Json.Scanner
import Collections.Json.Skip

/-!
# Reading a record

A record is a fixed list of named fields.  It is read from an object, where fields
may come in any order and unknown ones are passed over, or from a list that has the
values in the order of the fields.  The reader takes one step for each token and
stops at the first fault.
-/

namespace Collections.Json

/-- The kinds of value that a field can have: a number of 64 bits or a truth value. -/
inductive FieldKind where
  | count
  | flag
  deriving DecidableEq, Repr

abbrev FieldKind.Value : FieldKind → Type
  | .count => UInt64
  | .flag => Bool

structure Field where
  name : String
  kind : FieldKind
  deriving DecidableEq, Repr

structure Schema where
  name : String
  fields : List Field
  deriving DecidableEq, Repr

/-- One value for every field. -/
abbrev Record : List Field → Type
  | [] => Unit
  | field :: fields => field.kind.Value × Record fields

/-- A value for some of the fields. -/
abbrev Draft : List Field → Type
  | [] => Unit
  | field :: fields => Option field.kind.Value × Draft fields

/-- Reads the value of a field from a token. -/
def readValue (kind : FieldKind) (token : Token) : Except Fault kind.Value :=
  match kind, token with
  | .count, .number (.ok (.natural value)) _ => .ok value
  | .count, .number (.ok (.negative value)) _ =>
    .error (.wrongValue (.integer value.toInt) "usize")
  | .count, _ => .error (token.mismatch "usize")
  | .flag, .boolean value => .ok value
  | .flag, _ => .error (token.mismatch "a boolean")

namespace Draft

def empty : (fields : List Field) → Draft fields
  | [] => ()
  | _ :: fields => (none, empty fields)

/-- Whether the field at a position has a value. -/
def isSet : (fields : List Field) → Draft fields → Nat → Bool
  | [], _, _ => false
  | _ :: _, draft, 0 => draft.1.isSome
  | _ :: fields, draft, position + 1 => isSet fields draft.2 position

/-- Reads the field at a position from a token. -/
def read : (fields : List Field) → Draft fields → Nat → Token → Except Fault (Draft fields)
  | [], draft, _, _ => .ok draft
  | field :: _, draft, 0, token =>
    match readValue field.kind token with
    | .ok value => .ok (some value, draft.2)
    | .error fault => .error fault
  | _ :: fields, draft, position + 1, token =>
    match read fields draft.2 position token with
    | .ok rest => .ok (draft.1, rest)
    | .error fault => .error fault

/-- The record, unless a field has no value. -/
def complete : (fields : List Field) → Draft fields → Except Fault (Record fields)
  | [], _ => .ok ()
  | field :: fields, draft =>
    match draft.1, complete fields draft.2 with
    | some value, .ok rest => .ok (value, rest)
    | some _, .error fault => .error fault
    | none, _ => .error (.missingField field.name)

end Draft

/-- Where a reader is in the text of a record. -/
inductive Place where
  | start
  | firstKey
  /-- Behind a comma in an object. -/
  | key
  /-- Behind the key of a field, or of no field. -/
  | colon (field : Option Nat)
  | value (field : Nat)
  | skipping (skipping : Skipping)
  | afterMember
  | firstItem
  /-- Behind a comma in a list, with the position of the field that is next. -/
  | item (field : Nat)
  /-- Behind an item of a list, with the number of items read. -/
  | afterItem (count : Nat)
  /-- Behind a comma that follows the last item. -/
  | surplus
  | finished
  deriving DecidableEq, Repr

structure RecordReader (schema : Schema) where
  place : Place
  draft : Draft schema.fields

namespace RecordReader

variable {schema : Schema}

/-- A reader in front of the text. -/
def start (schema : Schema) : RecordReader schema :=
  ⟨.start, .empty schema.fields⟩

def atPlace (reader : RecordReader schema) (place : Place) : Except Fault (RecordReader schema) :=
  .ok { reader with place := place }

/-- Reads a value into a field and goes on to a place. -/
def take (reader : RecordReader schema) (field : Nat) (token : Token) (place : Place) :
    Except Fault (RecordReader schema) :=
  match reader.draft.read schema.fields field token with
  | .ok draft => .ok ⟨place, draft⟩
  | .error fault => .error fault

/-- Goes on behind a key.  A field that already has a value is refused at once. -/
def atKey (reader : RecordReader schema) (name : String) : Except Fault (RecordReader schema) :=
  match schema.fields.findIdx? fun field => field.name == name with
  | some field =>
    if reader.draft.isSet schema.fields field then .error (.duplicateField name)
    else reader.atPlace (.colon (some field))
  | none => reader.atPlace (.colon none)

/-- Ends the record at its closing bracket, where no field may be missing. -/
def finish (reader : RecordReader schema) : Except Fault (RecordReader schema) :=
  match reader.draft.complete schema.fields with
  | .ok _ => reader.atPlace .finished
  | .error fault => .error fault

/-- How many items a list must have. -/
def expectedItems (schema : Schema) : String :=
  "struct " ++ schema.name ++ " with " ++ literal schema.fields.length
    ++ (if schema.fields.length = 1 then " element" else " elements")

def step (reader : RecordReader schema) (token : Token) : Except Fault (RecordReader schema) :=
  match reader.place, token with
  | .start, .opening .object => reader.atPlace .firstKey
  | .start, .opening .list => reader.atPlace .firstItem
  | .start, _ => .error (token.mismatch ("struct " ++ schema.name))
  | .firstKey, .closing .object => reader.finish
  | .key, .closing .object => .error .trailingComma
  | .firstKey, .text name _ | .key, .text name _ =>
    match name with
    | .ok name => reader.atKey name
    | .error fault => .error fault
  | .firstKey, _ | .key, _ => .error .keyNotText
  | .colon (some field), .colon => reader.atPlace (.value field)
  | .colon none, .colon => reader.atPlace (.skipping .start)
  | .colon _, _ => .error .expectedColon
  | .value field, _ => reader.take field token .afterMember
  | .skipping skipping, _ =>
    match skipping.step token with
    | .ok next => reader.atPlace (if next.isComplete then .afterMember else .skipping next)
    | .error fault => .error fault
  | .afterMember, .comma => reader.atPlace .key
  | .afterMember, .closing .object => reader.finish
  | .afterMember, _ => .error .expectedCommaOrObjectEnd
  | .firstItem, .closing .list => .error (.tooShort 0 (expectedItems schema))
  | .firstItem, _ => reader.take 0 token (.afterItem 1)
  | .item _, .closing .list => .error .trailingComma
  | .item field, _ => reader.take field token (.afterItem (field + 1))
  | .afterItem count, _ =>
    if count < schema.fields.length then
      match token with
      | .comma => reader.atPlace (.item count)
      | .closing .list => .error (.tooShort count (expectedItems schema))
      | _ => .error .expectedCommaOrListEnd
    else
      match token with
      | .comma => reader.atPlace .surplus
      | .closing .list => reader.finish
      | _ => .error .trailingCharacters
  | .surplus, .closing .list => .error .trailingComma
  | .surplus, _ => .error .trailingCharacters
  | .finished, _ => .error .trailingCharacters

/-- What the end of the text means at a place. -/
def result (reader : RecordReader schema) : Except Fault (Record schema.fields) :=
  match reader.place with
  | .finished => reader.draft.complete schema.fields
  | .start | .key | .value _ | .item _ => .error (.unfinished .value)
  | .firstKey | .colon _ | .afterMember => .error (.unfinished .object)
  | .firstItem | .afterItem _ => .error (.unfinished .list)
  | .skipping skipping => .error skipping.unfinished
  | .surplus => .error .trailingCharacters

/-- One step for each token. -/
def run (reader : RecordReader schema) : List Token → Except Fault (Record schema.fields)
  | [] => reader.result
  | token :: tokens =>
    match reader.step token with
    | .ok next => next.run tokens
    | .error fault => .error fault

end RecordReader

/-- Reads the record that a text holds. -/
def readRecord (schema : Schema) (text : String) : Except Fault (Record schema.fields) :=
  (RecordReader.start schema).run (tokens text.toList)

end Collections.Json
