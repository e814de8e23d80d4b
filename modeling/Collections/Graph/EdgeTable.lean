import Collections.Graph.Memory
import Collections.Settings.Matrix
import Collections.Step

/-!
# Edge tables

Two square tables with the same number of rows and columns: one says for each pair
of indices whether there is an edge, the other holds its cost, or the default cost
where there is none.  A table becomes larger by being copied into a larger one.
-/

namespace Collections

universe u

structure EdgeTable (E : Type u) where
  /-- The number of rows, which is the number of columns. -/
  capacity : UInt64
  /-- One row after the other. -/
  presence : Array Bool
  costs : Array E

namespace EdgeTable

/-! ## Size and memory -/

/-- The number of cells of each table, if the two together fit into the memory that
can be addressed. -/
def cells (E : Type u) [ByteSize E] (capacity : UInt64) : Except Fault UInt64 :=
  let fits (count : UInt64) : Bool :=
    (Word.checkedMul count (ByteSize.byteSize Bool + ByteSize.byteSize E)).any
      (· ≤ Word.largestObject)
  match (MatrixSettings.cells? capacity).filter fits with
  | some count => .ok count
  | none => .error (.parameter (.matrixExceedsMemory capacity))

/-- Asks for the memory of both tables, presence first, before there is a table to fill it. -/
def reserve (E : Type u) [ByteSize E] (memory : Memory) (capacity : UInt64) :
    Except Fault Unit := do
  let count ← cells E capacity
  memory.request .presence (Word.saturatingMul count (ByteSize.byteSize Bool))
  memory.request .costs (Word.saturatingMul count (ByteSize.byteSize E))

/-- Twice a number of rows. -/
def twice (capacity : UInt64) : Except Fault UInt64 :=
  match Word.checkedMul capacity 2 with
  | some larger => .ok larger
  | none => .error (.parameter .matrixSideOverflows)

variable {E : Type u} [Inhabited E]

/-- A table without edges. -/
def blank (capacity : UInt64) : EdgeTable E :=
  ⟨capacity, .replicate (capacity.toNat * capacity.toNat) false,
    .replicate (capacity.toNat * capacity.toNat) default⟩

def allocate [ByteSize E] (memory : Memory) (capacity : UInt64) : Except Fault (EdgeTable E) :=
  (reserve E memory capacity).map fun _ => blank capacity

/-! ## Cells -/

/-- The place of a cell in the sequence of all rows. -/
def cell (table : EdgeTable E) (row column : Nat) : Nat :=
  row * table.capacity.toNat + column

def present (table : EdgeTable E) (row column : Nat) : Bool :=
  table.presence[table.cell row column]?.getD false

/-- The cost of the edge in a cell, if there is one. -/
def edge? (table : EdgeTable E) (row column : Nat) : Option E :=
  if table.present row column then table.costs[table.cell row column]? else none

/-- Puts an edge into a cell, in place of one that may be there. -/
def put (table : EdgeTable E) (row column : Nat) (cost : E) : EdgeTable E :=
  let place := table.cell row column
  { table with
    presence := table.presence.setIfInBounds place true
    costs := table.costs.setIfInBounds place cost }

/-- Leaves a cell without an edge. -/
def erase (table : EdgeTable E) (row column : Nat) : EdgeTable E :=
  let place := table.cell row column
  { table with
    presence := table.presence.setIfInBounds place false
    costs := table.costs.setIfInBounds place default }

/-- Moves what a cell holds to another cell and leaves the first one without an edge.  The cost
is moved as it is, also where there is no edge. -/
def move (table : EdgeTable E) (row column toRow toColumn : Nat) : EdgeTable E :=
  let held := table.present row column
  let cost := table.costs[table.cell row column]?.getD default
  let rest := table.erase row column
  let place := table.cell toRow toColumn
  { rest with
    presence := rest.presence.setIfInBounds place held
    costs := rest.costs.setIfInBounds place cost }

/-! ## Rows, columns and whole tables -/

/-- Moves the row and the column of the last index to a smaller index without edges. -/
def relocate (table : EdgeTable E) (last freed : Nat) : EdgeTable E :=
  let others := (List.range last).filter (· ≠ freed)
  let moved := others.foldl (fun current other =>
    (current.move last other freed other).move other last other freed) table
  moved.move last last freed freed

def clear (table : EdgeTable E) : EdgeTable E :=
  blank table.capacity

/-- The square of the first `live` rows and columns, in a table with `larger` of each. -/
def enlarge (table : EdgeTable E) (larger : UInt64) (live : Nat) : EdgeTable E :=
  let side := larger.toNat
  let within (place : Nat) : Bool := place / side < live && place % side < live
  let former (place : Nat) : Nat := table.cell (place / side) (place % side)
  { capacity := larger
    presence := .ofFn fun place : Fin (side * side) =>
      within place && table.presence[former place]?.getD false
    costs := .ofFn fun place : Fin (side * side) =>
      if within place then table.costs[former place]?.getD default else default }

/-- Makes a table twice as large and keeps the edges among the first `live` indices.  The table
is not touched before all the memory is granted. -/
def grow [ByteSize E] (memory : Memory) (table : EdgeTable E) (live : Nat) :
    Step (EdgeTable E) (Except Fault Unit) :=
  match twice table.capacity with
  | .error fault => .quiet table (.error fault)
  | .ok larger =>
    match reserve E memory larger with
    | .error fault => .quiet table (.error fault)
    | .ok () => ⟨table.enlarge larger live, .ok (), [.matrixGrown table.capacity larger]⟩

/-- The first of `count` columns from a column on in which a row has an edge. -/
def nextColumn? (table : EdgeTable E) (row : Nat) : Nat → Nat → Option Nat
  | 0, _ => none
  | count + 1, column =>
    if table.present row column then some column else table.nextColumn? row count (column + 1)

end EdgeTable

end Collections
