import Collections.Literal

/-!
# Steps and their log

Some operations write to the log besides changing the collection.  A step is what
such an operation leaves behind: the new state, the result and the events it
logged, in order.  An operation that can fail returns its state also when it
fails, so that "a failed call changes nothing" is a statement about steps.
-/

namespace Collections

universe u v w x

inductive LogEvent where
  | elementRepositioned (index : Nat)
  | dequeGrown (slots : Nat)
  | entryEvicted (slot : Nat) (capacity : UInt64)
  | matrixGrown (before after : UInt64)
  | initializing (version : String)
  deriving DecidableEq, Repr

inductive LogLevel where
  | trace
  | debug
  deriving DecidableEq, Repr

namespace LogEvent

def level : LogEvent → LogLevel
  | .elementRepositioned _ | .dequeGrown _ | .entryEvicted _ _ => .trace
  | .matrixGrown _ _ | .initializing _ => .debug

def message : LogEvent → String
  | .elementRepositioned index =>
    "sorted list: repositioning element written at index " ++ literal index
  | .dequeGrown slots => "deque grown to " ++ literal slots ++ " slots"
  | .entryEvicted slot capacity =>
    "lru cache: evicted slot " ++ literal slot ++ " at capacity " ++ literal capacity
  | .matrixGrown before after =>
    "adjacency matrix grown from " ++ literal before ++ " to " ++ literal after ++ " vertices"
  | .initializing version => "Initializing altcollections v" ++ version

/-- The line of the log: the level, then the message. -/
def line (event : LogEvent) : String :=
  (match event.level with
    | .trace => "TRACE "
    | .debug => "DEBUG ") ++ event.message

end LogEvent

structure Step (σ : Type u) (ρ : Type v) where
  state : σ
  result : ρ
  log : List LogEvent

namespace Step

variable {σ : Type u} {ρ : Type v} {τ : Type w} {α : Type w} {ε : Type x}

/-- A step that logs nothing. -/
def quiet (state : σ) (result : ρ) : Step σ ρ :=
  ⟨state, result, []⟩

/-- A result that comes with a state, as a step that logs nothing. -/
def ofPair (pair : ρ × σ) : Step σ ρ :=
  .quiet pair.2 pair.1

def map (change : ρ → τ) (step : Step σ ρ) : Step σ τ :=
  ⟨step.state, change step.result, step.log⟩

/-- The second step starts from the state of the first, and its events follow. -/
def andThen (step : Step σ ρ) (next : ρ → σ → Step σ τ) : Step σ τ :=
  let second := next step.result step.state
  ⟨second.state, second.result, step.log ++ second.log⟩

/-- One step for each item, in order. -/
def forEach (operation : σ → α → Step σ ρ) (state : σ) : List α → Step σ (List ρ)
  | [] => .quiet state []
  | item :: items =>
    (operation state item).andThen fun result next =>
      (forEach operation next items).map (result :: ·)

/-- One step for each item, in order, until one fails. -/
def tryEach (operation : σ → α → Step σ (Except ε ρ)) (state : σ) :
    List α → Step σ (Except ε (List ρ))
  | [] => .quiet state (.ok [])
  | item :: items =>
    (operation state item).andThen fun result next =>
      match result with
      | .ok first => (tryEach operation next items).map (·.map (first :: ·))
      | .error failure => .quiet next (.error failure)

/-- One step for each item, in order, keeping only the state and the log. -/
def run (operation : σ → α → Step σ ρ) (state : σ) (items : List α) : Step σ Unit :=
  (forEach operation state items).map fun _ => ()

end Step

end Collections
