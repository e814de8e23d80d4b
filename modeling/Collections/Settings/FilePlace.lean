import Collections.Fault

/-!
# Places of files

What stands at a path, as far as reading a file there and writing one depends on it.
-/

namespace Collections

inductive FilePlace where
  /-- The directory that should hold the file is missing. -/
  | unreachable
  /-- Nothing stands at the path. -/
  | vacant
  | directory
  | file (content : ByteArray)

namespace FilePlace

def read : FilePlace → Except FileFault ByteArray
  | .unreachable | .vacant => .error .missing
  | .directory => .error .directory
  | .file content => .ok content

/-- What stands at the path after a file has been written there. -/
def write (place : FilePlace) (content : ByteArray) : Except FileFault FilePlace :=
  match place with
  | .unreachable => .error .missing
  | .directory => .error .directory
  | .vacant | .file _ => .ok (.file content)

/-- The text of the file at a path. -/
def readText (place : FilePlace) : Except FileFault String :=
  match place.read with
  | .ok content =>
    match String.fromUTF8? content with
    | some text => .ok text
    | none => .error .undecodable
  | .error fault => .error fault

end FilePlace

end Collections
