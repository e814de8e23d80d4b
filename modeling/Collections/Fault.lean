import Collections.Json.Fault

/-!
# Faults

What an operation reports when it is used outside its precondition, when memory
runs out, or when a settings file cannot be read.  A value that is merely absent
is never a fault.  Each fault is one cause; its message, its category and whether
a caller may hope to recover are functions of the cause.
-/

namespace Collections

/-- The end of an edge that a fault is about. -/
inductive EdgeEnd where
  | source
  | target
  deriving DecidableEq, Repr

def EdgeEnd.label : EdgeEnd → String
  | .source => "v1"
  | .target => "v2"

instance : Literal EdgeEnd where
  literal
    | .source => "Source"
    | .target => "Target"

/-- The kinds of failure that a file system names. -/
inductive FileFaultKind where
  | notFound
  | permissionDenied
  | alreadyExists
  | isDirectory
  | invalidInput
  | invalidData
  | timedOut
  | interrupted
  | unsupported
  | unexpectedEnd
  | outOfMemory
  | other
  deriving DecidableEq, Repr

def FileFaultKind.all : List FileFaultKind :=
  [.notFound, .permissionDenied, .alreadyExists, .isDirectory, .invalidInput, .invalidData,
    .timedOut, .interrupted, .unsupported, .unexpectedEnd, .outOfMemory, .other]

instance : Literal FileFaultKind where
  literal
    | .notFound => "NotFound"
    | .permissionDenied => "PermissionDenied"
    | .alreadyExists => "AlreadyExists"
    | .isDirectory => "IsADirectory"
    | .invalidInput => "InvalidInput"
    | .invalidData => "InvalidData"
    | .timedOut => "TimedOut"
    | .interrupted => "Interrupted"
    | .unsupported => "Unsupported"
    | .unexpectedEnd => "UnexpectedEof"
    | .outOfMemory => "OutOfMemory"
    | .other => "Other"

inductive FileFault where
  /-- Nothing stands at the path, or a directory on the way is missing. -/
  | missing
  /-- A directory stands where a file is needed. -/
  | directory
  /-- The bytes of the file are no text. -/
  | undecodable
  | reported (kind : FileFaultKind) (message : String)

def FileFault.message : FileFault → String
  | .missing => "No such file or directory (os error 2)"
  | .directory => "Is a directory (os error 21)"
  | .undecodable => "stream did not contain valid UTF-8"
  | .reported _ message => message

instance : Literal FileFault where
  literal
    | .missing =>
      Literal.record "Os" [("code", "2"), ("kind", literal FileFaultKind.notFound),
        ("message", literal "No such file or directory")]
    | .directory =>
      Literal.record "Os" [("code", "21"), ("kind", literal FileFaultKind.isDirectory),
        ("message", literal "Is a directory")]
    | .undecodable =>
      Literal.record "Error" [("kind", literal FileFaultKind.invalidData),
        ("message", literal "stream did not contain valid UTF-8")]
    | .reported kind message =>
      Literal.record "Custom" [("kind", literal kind), ("error", literal message)]

/-- Why an argument was refused. -/
inductive ParameterFault where
  | zeroCacheCapacity
  | zeroMatrixCapacity
  /-- The number of cells of the matrix is beyond the largest object size. -/
  | matrixCapacityOverflows (capacity : UInt64)
  /-- The two matrices together are larger than the address space. -/
  | matrixExceedsMemory (capacity : UInt64)
  /-- Twice the number of rows is no 64-bit number. -/
  | matrixSideOverflows
  | described (text : String)
  deriving DecidableEq, Repr

def ParameterFault.message : ParameterFault → String
  | .zeroCacheCapacity => "LRU cache capacity must be > 0"
  | .zeroMatrixCapacity => "Matrix graph capacity must be > 0"
  | .matrixCapacityOverflows capacity =>
    "Matrix graph capacity " ++ literal capacity ++ " overflows the matrix size"
  | .matrixExceedsMemory capacity =>
    "adjacency matrix of side " ++ literal capacity ++ " exceeds the address space"
  | .matrixSideOverflows => "adjacency matrix side overflows"
  | .described text => text

/-- Why a configuration was refused. -/
inductive ConfigurationFault where
  | unreadable (fault : Json.Fault)
  | described (text : String)

def ConfigurationFault.message : ConfigurationFault → String
  | .unreadable fault => "Failed to parse config file: " ++ fault.message
  | .described text => text

inductive Fault where
  | file (cause : FileFault)
  | parameter (cause : ParameterFault)
  | outOfMemory (bytes : UInt64)
  | outOfBounds (index size : Nat)
  | missingVertex (side : EdgeEnd) (vertex : String)
  | duplicateVertex (vertex : String)
  | configuration (cause : ConfigurationFault)

namespace Fault

def message : Fault → String
  | .file cause => "I/O error: " ++ cause.message
  | .parameter cause => "Invalid parameter: " ++ cause.message
  | .outOfMemory bytes => "Out of memory: failed to allocate " ++ literal bytes ++ " bytes"
  | .outOfBounds index size =>
    "Out of bounds: index " ++ literal index ++ ", size " ++ literal size
  | .missingVertex side vertex =>
    "Vertex " ++ side.label ++ " (" ++ vertex ++ ") does not exist in the graph"
  | .duplicateVertex vertex => "Vertex " ++ vertex ++ " already exists in the graph"
  | .configuration cause => "Invalid configuration: " ++ cause.message

/-- The part of the library that a fault belongs to. -/
def category : Fault → String
  | .file _ => "io"
  | .parameter _ => "parameter"
  | .outOfMemory _ => "memory"
  | .outOfBounds _ _ => "bounds"
  | .missingVertex _ _ => "graph"
  | .duplicateVertex _ => "graph"
  | .configuration _ => "config"

/-- Faults of the surroundings can pass; faults of the caller do not. -/
def isRecoverable : Fault → Bool
  | .file _ | .configuration _ | .outOfMemory _ => true
  | .parameter _ | .outOfBounds _ _ | .missingVertex _ _ | .duplicateVertex _ => false

instance : Literal Fault where
  literal
    | .file cause => "Io(" ++ literal cause ++ ")"
    | .parameter cause => Literal.record "InvalidParameter" [("message", literal cause.message)]
    | .outOfMemory bytes => Literal.record "OutOfMemory" [("size", literal bytes)]
    | .outOfBounds index size =>
      Literal.record "OutOfBounds" [("index", literal index), ("size", literal size)]
    | .missingVertex side vertex =>
      Literal.record "MissingVertex" [("side", literal side), ("vertex", literal vertex)]
    | .duplicateVertex vertex =>
      Literal.record "DuplicateVertex" [("vertex", literal vertex)]
    | .configuration cause => Literal.record "Configuration" [("message", literal cause.message)]

end Fault

universe u

/-- The fault of an edge operation at one end, which shows the vertex by its literal. -/
def Fault.missing {V : Type u} [Literal V] (side : EdgeEnd) (vertex : V) : Fault :=
  .missingVertex side (literal vertex)

def Fault.duplicate {V : Type u} [Literal V] (vertex : V) : Fault :=
  .duplicateVertex (literal vertex)

/-- Accepts exactly the indices below the size. -/
def checkBounds (index size : Nat) : Except Fault Unit :=
  if index < size then .ok () else .error (.outOfBounds index size)

/-- What an access without a check reports. -/
structure IndexViolation where
  length : Nat
  index : Nat
  deriving DecidableEq, Repr

def IndexViolation.message (violation : IndexViolation) : String :=
  "index out of bounds: the len is " ++ literal violation.length ++ " but the index is "
    ++ literal violation.index

end Collections
