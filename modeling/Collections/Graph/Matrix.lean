import Collections.Graph.Directed
import Collections.Graph.EdgeTable
import Std.Data.HashMap

/-!
# Matrix graphs

A directed graph whose vertices have the indices from zero on, without a gap, and
whose edges are the cells of an edge table.  When a vertex is removed, the vertex
with the last index moves to the index that became free, and its row and its column
move with it.  A full table doubles; it never becomes smaller.
-/

namespace Collections

universe u v

structure MatrixGraph (V : Type u) (E : Type v) [BEq V] [Hashable V] where
  index : Std.HashMap V Nat
  /-- The vertices by their index. -/
  vertices : Array V
  table : EdgeTable E
  edgeCount : Nat

namespace MatrixGraph

variable {V : Type u} {E : Type v} [BEq V] [Hashable V]

/-! ## Questions -/

def capacity (graph : MatrixGraph V E) : UInt64 :=
  graph.table.capacity

def vertexCount (graph : MatrixGraph V E) : Nat :=
  graph.vertices.size

def isEmpty (graph : MatrixGraph V E) : Bool :=
  graph.vertices.isEmpty

/-- The index of a vertex, which stands until a vertex is removed. -/
def indexOf? (graph : MatrixGraph V E) (vertex : V) : Option Nat :=
  graph.index[vertex]?

def vertexAt? (graph : MatrixGraph V E) (index : Nat) : Option V :=
  graph.vertices[index]?

def hasVertex (graph : MatrixGraph V E) (vertex : V) : Bool :=
  graph.index.contains vertex

def hasEdge (graph : MatrixGraph V E) (source target : V) : Bool :=
  match graph.indexOf? source, graph.indexOf? target with
  | some row, some column => graph.table.present row column
  | _, _ => false

def edgeCost? (graph : MatrixGraph V E) (source target : V) : Option E :=
  match graph.indexOf? source, graph.indexOf? target with
  | some row, some column => graph.table.edge? row column
  | _, _ => none

/-- The edge in a cell, as its target and its cost. -/
def edgeAt? (graph : MatrixGraph V E) (row column : Nat) : Option (V × E) :=
  (graph.vertexAt? column).bind fun target =>
    (graph.table.edge? row column).map fun cost => (target, cost)

/-- The edges that leave a vertex, by the index of their targets. -/
def edges (graph : MatrixGraph V E) (vertex : V) : List (V × E) :=
  match graph.indexOf? vertex with
  | some row => (List.range graph.vertexCount).filterMap (graph.edgeAt? row)
  | none => []

/-- The number of edges that leave a vertex. -/
def degree (graph : MatrixGraph V E) (vertex : V) : Nat :=
  match graph.indexOf? vertex with
  | some row => (List.range graph.vertexCount).countP (graph.table.present row)
  | none => 0

/-- The number of edges that lead to a vertex. -/
def incomingDegree (graph : MatrixGraph V E) (vertex : V) : Nat :=
  match graph.indexOf? vertex with
  | some column => (List.range graph.vertexCount).countP fun row => graph.table.present row column
  | none => 0

/-! ## Changes -/

/-- Adds the edge between two vertices or overwrites its cost; the source is looked up
first. -/
def addEdge [Literal V] (graph : MatrixGraph V E) (source target : V) (cost : E) :
    Except Fault Unit × MatrixGraph V E :=
  match graph.indexOf? source, graph.indexOf? target with
  | none, _ => (.error (.missing .source source), graph)
  | some _, none => (.error (.missing .target target), graph)
  | some row, some column =>
    let added := if graph.table.present row column then 0 else 1
    (.ok (),
      { graph with
        table := graph.table.put row column cost
        edgeCount := graph.edgeCount + added })

/-- Gives a new vertex the next index. -/
def append (graph : MatrixGraph V E) (vertex : V) : MatrixGraph V E :=
  { graph with
    index := graph.index.insert vertex graph.vertexCount
    vertices := graph.vertices.push vertex }

variable [Inhabited E]

/-- A graph without vertices on a table without edges. -/
def ofTable (table : EdgeTable E) : MatrixGraph V E :=
  ⟨∅, #[], table, 0⟩

/-- A graph of the standard capacity. -/
def empty : MatrixGraph V E :=
  ofTable (.blank MatrixSettings.standard.initialCapacity)

instance : Inhabited (MatrixGraph V E) := ⟨empty⟩

def withSettings [ByteSize E] (memory : Memory) (settings : MatrixSettings) :
    Except Fault (MatrixGraph V E) :=
  match settings.validate with
  | .ok () => (EdgeTable.allocate memory settings.initialCapacity).map ofTable
  | .error fault => .error fault

def withCapacity [ByteSize E] (memory : Memory) (capacity : UInt64) :
    Except Fault (MatrixGraph V E) :=
  withSettings memory ⟨capacity⟩

/-- Adds a vertex and tells whether it is new; only a full table can make it fail. -/
def addVertex [ByteSize E] (memory : Memory) (graph : MatrixGraph V E) (vertex : V) :
    Step (MatrixGraph V E) (Except Fault Bool) :=
  if graph.hasVertex vertex then
    .quiet graph (.ok false)
  else if graph.vertexCount = graph.capacity.toNat then
    let growth := graph.table.grow memory graph.vertexCount
    let grown : MatrixGraph V E := { graph with table := growth.state }
    match growth.result with
    | .ok () => ⟨grown.append vertex, .ok true, growth.log⟩
    | .error fault => ⟨grown, .error fault, growth.log⟩
  else
    .quiet (graph.append vertex) (.ok true)

/-- Takes the edge out of a cell, if there is one. -/
def dropEdge (graph : MatrixGraph V E) (row column : Nat) : MatrixGraph V E :=
  if graph.table.present row column then
    { graph with
      table := graph.table.erase row column
      edgeCount := graph.edgeCount - 1 }
  else
    graph

/-- Removes the edge between two vertices and tells whether there was one. -/
def removeEdge (graph : MatrixGraph V E) (source target : V) : Bool × MatrixGraph V E :=
  match graph.indexOf? source, graph.indexOf? target with
  | some row, some column => (graph.table.present row column, graph.dropEdge row column)
  | _, _ => (false, graph)

/-- Takes out all edges that leave an index or lead to it. -/
def isolate (graph : MatrixGraph V E) (index : Nat) : MatrixGraph V E :=
  let others := List.range graph.vertexCount
  let outgoing := others.foldl (fun current column => current.dropEdge index column) graph
  others.foldl (fun current row => current.dropEdge row index) outgoing

/-- Lets the last vertex take an index, and shortens the indices by one. -/
def takeOver (graph : MatrixGraph V E) (freed : Nat) : MatrixGraph V E :=
  let last := graph.vertexCount - 1
  match graph.vertices[last]? with
  | some moved =>
    if freed = last then
      { graph with vertices := graph.vertices.pop }
    else
      { graph with
        index := graph.index.insert moved freed
        vertices := (graph.vertices.setIfInBounds freed moved).pop
        table := graph.table.relocate last freed }
  | none => graph

/-- Removes a vertex with all its edges and tells whether it was there. -/
def removeVertex (graph : MatrixGraph V E) (vertex : V) : Bool × MatrixGraph V E :=
  match graph.indexOf? vertex with
  | some freed =>
    let isolated := graph.isolate freed
    (true,
      ({ isolated with index := isolated.index.erase vertex } : MatrixGraph V E).takeOver freed)
  | none => (false, graph)

/-- Removes all vertices and edges; the capacity stays. -/
def clear (graph : MatrixGraph V E) : MatrixGraph V E :=
  ofTable graph.table.clear

instance [ByteSize E] [Literal V] : DirectedGraph (MatrixGraph V E) V E where
  addVertex := addVertex
  addEdge := addEdge
  removeVertex := removeVertex
  removeEdge := removeEdge
  clear := clear
  hasVertex := hasVertex
  hasEdge := hasEdge
  edgeCost? := edgeCost?
  degree := degree
  vertexCount := vertexCount
  edgeCount := edgeCount
  vertices graph := graph.vertices.toList
  edges := edges

instance [Literal V] [Literal E] : Literal (MatrixGraph V E) where
  literal graph :=
    Literal.map (graph.vertices.toList.map fun vertex => (vertex, graph.edges vertex))

/-! ## Walks over the edges of a vertex -/

/-- A walk over the edges that leave a vertex, one column after the other. -/
structure EdgeWalk (V : Type u) (E : Type v) [BEq V] [Hashable V] where
  graph : MatrixGraph V E
  /-- The row of the vertex, unless it is absent. -/
  row : Option Nat
  /-- The first column that was not looked at yet. -/
  column : Nat

def walkEdges (graph : MatrixGraph V E) (vertex : V) : EdgeWalk V E :=
  ⟨graph, graph.indexOf? vertex, 0⟩

namespace EdgeWalk

/-- The number of columns that were not looked at yet. -/
def columnsLeft (walk : EdgeWalk V E) : Nat :=
  walk.graph.vertexCount - walk.column

/-- A least and a greatest number of edges still to come. -/
def bounds (walk : EdgeWalk V E) : Nat × Nat :=
  match walk.row with
  | some _ => (0, walk.columnsLeft)
  | none => (0, 0)

def next (walk : EdgeWalk V E) : Option (V × E) × EdgeWalk V E :=
  match walk.row with
  | some row =>
    match walk.graph.table.nextColumn? row walk.columnsLeft walk.column with
    | some column => (walk.graph.edgeAt? row column, { walk with column := column + 1 })
    | none => (none, { walk with column := walk.column + walk.columnsLeft })
  | none => (none, walk)

/-- The edge and the bounds on the edges still to come, for each of a number of calls. -/
def calls : Nat → EdgeWalk V E → List (Option (V × E) × (Nat × Nat))
  | 0, _ => []
  | count + 1, walk =>
    let (edge, rest) := walk.next
    (edge, rest.bounds) :: calls count rest

end EdgeWalk

end MatrixGraph

end Collections
