import Collections.Settings.Settings
import Collections.Word

/-!
# Settings of a matrix graph

The number of vertices that a matrix graph has room for at first, which is the side
of its square matrices.
-/

namespace Collections

structure MatrixSettings where
  initialCapacity : UInt64
  deriving DecidableEq, Repr

namespace MatrixSettings

/-- The number of cells of a square matrix, if a single object can have that many. -/
def cells? (side : UInt64) : Option UInt64 :=
  (Word.checkedMul side side).filter (· ≤ Word.largestObject)

def standard : MatrixSettings := ⟨16⟩

instance : Inhabited MatrixSettings := ⟨standard⟩

/-- A matrix must have a cell, and not more cells than a single object can have. -/
def validate (settings : MatrixSettings) : Except Fault Unit :=
  if settings.initialCapacity = 0 then
    .error (.parameter .zeroMatrixCapacity)
  else if (cells? settings.initialCapacity).isNone then
    .error (.parameter (.matrixCapacityOverflows settings.initialCapacity))
  else
    .ok ()

def schema : Json.Schema :=
  ⟨"MatrixGraphConfig", [⟨"initial_capacity", .count⟩]⟩

instance : Settings MatrixSettings where
  schema := schema
  toRecord settings := (settings.initialCapacity, ())
  ofRecord record := ⟨record.1⟩
  validate := validate
  standard := standard
  performance := ⟨256⟩
  memory := ⟨4⟩
  read environment stem :=
    ⟨environment.valueOr (stem ++ "MATRIX_CAPACITY") standard.initialCapacity⟩

instance : Literal MatrixSettings where
  literal settings :=
    Literal.record "MatrixGraphConfig" [("initial_capacity", literal settings.initialCapacity)]

end MatrixSettings

end Collections
