import Collections.Json.Token

/-!
# Passing over a value

A value that nobody asked for is passed over token by token.  All that is kept is
the stack of open brackets and what may come next.
-/

namespace Collections.Json

/-- What may come next inside a value that is passed over. -/
inductive Awaiting where
  | value
  /-- The first item of the innermost bracket, or its end. -/
  | firstItem
  | key
  | colon
  /-- The end of a value has been reached. -/
  | following
  deriving DecidableEq, Repr

/-- A value that is being passed over: its open brackets, the innermost first. -/
structure Skipping where
  awaiting : Awaiting
  enclosing : List Bracket
  deriving DecidableEq, Repr

namespace Skipping

def start : Skipping := ⟨.value, []⟩

/-- Whether the value has been passed over completely. -/
def isComplete (skipping : Skipping) : Bool :=
  skipping.awaiting == .following && skipping.enclosing.isEmpty

/-- Goes on after a token whose form may be wrong. -/
def unlessMalformed (malformed : Option Fault) (next : Skipping) : Except Fault Skipping :=
  match malformed with
  | some fault => .error fault
  | none => .ok next

def atValue (enclosing : List Bracket) : Token → Except Fault Skipping
  | .opening bracket => .ok ⟨.firstItem, bracket :: enclosing⟩
  | .null | .boolean _ => .ok ⟨.following, enclosing⟩
  | .number _ malformed | .text _ malformed => unlessMalformed malformed ⟨.following, enclosing⟩
  | .broken fault => .error fault
  | .closing _ | .comma | .colon | .stray => .error .expectedValue

def atKey (enclosing : List Bracket) : Token → Except Fault Skipping
  | .text _ malformed => unlessMalformed malformed ⟨.colon, enclosing⟩
  | _ => .error .keyNotText

def atItem (bracket : Bracket) (enclosing : List Bracket) (token : Token) :
    Except Fault Skipping :=
  match bracket with
  | .list => atValue enclosing token
  | .object => atKey enclosing token

/-- What is awaited after a comma. -/
def afterComma : Bracket → Awaiting
  | .list => .value
  | .object => .key

def step (skipping : Skipping) (token : Token) : Except Fault Skipping :=
  match skipping.awaiting, skipping.enclosing with
  | .value, enclosing => atValue enclosing token
  | .key, enclosing => atKey enclosing token
  | .colon, enclosing =>
    match token with
    | .colon => .ok ⟨.value, enclosing⟩
    | _ => .error .expectedColon
  | .firstItem, bracket :: outer =>
    match token with
    | .closing closed =>
      if closed = bracket then .ok ⟨.following, outer⟩
      else atItem bracket (bracket :: outer) token
    | _ => atItem bracket (bracket :: outer) token
  | .following, bracket :: outer =>
    match token with
    | .comma => .ok ⟨afterComma bracket, bracket :: outer⟩
    | .closing closed =>
      if closed = bracket then .ok ⟨.following, outer⟩ else .error bracket.unclosed
    | _ => .error bracket.unclosed
  | .firstItem, [] | .following, [] => .error .trailingCharacters

/-- What is reported when the text ends here. -/
def unfinished (skipping : Skipping) : Fault :=
  match skipping.awaiting, skipping.enclosing with
  | .value, _ => .unfinished .value
  | .key, _ | .colon, _ => .unfinished .object
  | .firstItem, bracket :: _ | .following, bracket :: _ => bracket.unfinished
  | .firstItem, [] | .following, [] => .unfinished .value

end Skipping

end Collections.Json
