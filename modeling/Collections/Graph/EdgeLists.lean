import Collections.Graph.Directed
import Std.Data.HashMap

/-!
# List graphs

A directed graph that keeps, for each vertex, the list of the edges that leave it
in the order in which they were created.  Overwriting the cost of an edge keeps its
place and its target.  The vertices have no order.
-/

namespace Collections

universe u v

/-- A vertex and the edges that leave it, each as its target and its cost. -/
structure EdgeList (V : Type u) (E : Type v) where
  vertex : V
  edges : List (V × E)

namespace EdgeList

variable {V : Type u} {E : Type v} [BEq V]

/-- The place of the edge to a target. -/
def place? (row : EdgeList V E) (target : V) : Option Nat :=
  row.edges.findIdx? fun edge => edge.1 == target

def cost? (row : EdgeList V E) (target : V) : Option E :=
  (row.edges.find? fun edge => edge.1 == target).map Prod.snd

/-- Overwrites the cost of the edge to a target in its place, or appends the edge. -/
def put (row : EdgeList V E) (target : V) (cost : E) : EdgeList V E :=
  match row.place? target with
  | some place =>
    { row with edges := row.edges.modify place fun edge => (edge.1, cost) }
  | none => { row with edges := row.edges ++ [(target, cost)] }

def erase (row : EdgeList V E) (target : V) : EdgeList V E :=
  { row with edges := row.edges.eraseP fun edge => edge.1 == target }

/-- Takes out every edge to a target. -/
def without (row : EdgeList V E) (target : V) : EdgeList V E :=
  { row with edges := row.edges.filter fun edge => edge.1 != target }

/-- The number of edges that go with a target. -/
def edgesTo (row : EdgeList V E) (target : V) : Nat :=
  row.edges.length - (row.without target).edges.length

end EdgeList

structure ListGraph (V : Type u) (E : Type v) [BEq V] [Hashable V] where
  rows : Std.HashMap V (EdgeList V E)
  edgeCount : Nat

namespace ListGraph

variable {V : Type u} {E : Type v} [BEq V] [Hashable V]

def empty : ListGraph V E :=
  ⟨∅, 0⟩

instance : Inhabited (ListGraph V E) := ⟨empty⟩

def clear (_graph : ListGraph V E) : ListGraph V E :=
  empty

/-! ## Questions -/

def vertexCount (graph : ListGraph V E) : Nat :=
  graph.rows.size

def isEmpty (graph : ListGraph V E) : Bool :=
  graph.rows.isEmpty

def hasVertex (graph : ListGraph V E) (vertex : V) : Bool :=
  graph.rows.contains vertex

/-- The vertices, each as the instance that was added, in no particular order. -/
def vertices (graph : ListGraph V E) : List V :=
  graph.rows.values.map EdgeList.vertex

/-- The edges that leave a vertex, in the order of their creation. -/
def edges (graph : ListGraph V E) (vertex : V) : List (V × E) :=
  (graph.rows[vertex]?.map EdgeList.edges).getD []

def edgeCost? (graph : ListGraph V E) (source target : V) : Option E :=
  graph.rows[source]?.bind fun row => row.cost? target

def hasEdge (graph : ListGraph V E) (source target : V) : Bool :=
  (graph.edgeCost? source target).isSome

/-- The number of edges that leave a vertex. -/
def degree (graph : ListGraph V E) (vertex : V) : Nat :=
  (graph.edges vertex).length

/-! ## Changes -/

/-- Adds a vertex, which must be new. -/
def addVertex [Literal V] (graph : ListGraph V E) (vertex : V) :
    Except Fault Unit × ListGraph V E :=
  if graph.hasVertex vertex then
    (.error (.duplicate vertex), graph)
  else
    (.ok (), { graph with rows := graph.rows.insert vertex ⟨vertex, []⟩ })

/-- Adds the edge between two vertices or overwrites its cost; the source is looked up
first. -/
def addEdge [Literal V] (graph : ListGraph V E) (source target : V) (cost : E) :
    Except Fault Unit × ListGraph V E :=
  match graph.rows[source]? with
  | none => (.error (.missing .source source), graph)
  | some row =>
    if graph.hasVertex target then
      let added := if (row.place? target).isSome then 0 else 1
      (.ok (),
        { graph with
          rows := graph.rows.insert source (row.put target cost)
          edgeCount := graph.edgeCount + added })
    else
      (.error (.missing .target target), graph)

/-- Removes the edge between two vertices and tells whether there was one. -/
def removeEdge (graph : ListGraph V E) (source target : V) : Bool × ListGraph V E :=
  match graph.rows[source]? with
  | none => (false, graph)
  | some row =>
    if (row.place? target).isSome then
      (true,
        { graph with
          rows := graph.rows.insert source (row.erase target)
          edgeCount := graph.edgeCount - 1 })
    else
      (false, graph)

/-- Removes a vertex, the edges that leave it and the edges that lead to it, and tells
whether it was there.  Each row takes the edges that it loses from the counter. -/
def removeVertex (graph : ListGraph V E) (vertex : V) : Bool × ListGraph V E :=
  match graph.rows[vertex]? with
  | none => (false, graph)
  | some row =>
    let others := graph.rows.erase vertex
    let edgeCount := others.fold (fun count _ other => count - other.edgesTo vertex)
      (graph.edgeCount - row.edges.length)
    (true, ⟨others.map fun _ other => other.without vertex, edgeCount⟩)

instance [Literal V] : DirectedGraph (ListGraph V E) V E where
  addVertex _ graph vertex := (Step.ofPair (graph.addVertex vertex)).map (·.map fun _ => true)
  addEdge := addEdge
  removeVertex := removeVertex
  removeEdge := removeEdge
  clear := clear
  hasVertex := hasVertex
  hasEdge := hasEdge
  edgeCost? := edgeCost?
  degree := degree
  vertexCount := vertexCount
  edgeCount := edgeCount
  vertices := vertices
  edges := edges

instance [Literal V] [Literal E] : Literal (ListGraph V E) where
  literal graph := Literal.map (graph.rows.values.map fun row => (row.vertex, row.edges))

end ListGraph

end Collections
