import Collections.Graph.Memory
import Collections.Step

/-!
# Directed graphs

What every directed graph with edge costs offers, however it is represented.  An
edge operation at an absent vertex fails; a question about an absent vertex has an
empty answer.
-/

namespace Collections

universe u v w

class DirectedGraph (γ : Type u) (V : outParam (Type v)) (E : outParam (Type w)) where
  /-- Tells whether the vertex is new, unless the graph refuses it. -/
  addVertex : Memory → γ → V → Step γ (Except Fault Bool)
  /-- Adds the edge from the first vertex to the second, or overwrites its cost. -/
  addEdge : γ → V → V → E → Except Fault Unit × γ
  removeVertex : γ → V → Bool × γ
  removeEdge : γ → V → V → Bool × γ
  clear : γ → γ
  hasVertex : γ → V → Bool
  hasEdge : γ → V → V → Bool
  edgeCost? : γ → V → V → Option E
  /-- The number of edges that leave a vertex. -/
  degree : γ → V → Nat
  vertexCount : γ → Nat
  edgeCount : γ → Nat
  vertices : γ → List V
  /-- The edges that leave a vertex, each as its target and its cost. -/
  edges : γ → V → List (V × E)

namespace DirectedGraph

variable {γ : Type u} {V : Type v} {E : Type w} [DirectedGraph γ V E]

/-- The targets of the edges that leave a vertex. -/
def neighbors (graph : γ) (vertex : V) : List V :=
  (edges graph vertex).map Prod.fst

def isEmpty (graph : γ) : Bool :=
  vertexCount graph == 0

/-- Adds vertices in order, until one is refused. -/
def addVertices (memory : Memory) (graph : γ) (vertices : List V) :
    Step γ (Except Fault (List Bool)) :=
  Step.tryEach (addVertex memory) graph vertices

end DirectedGraph

end Collections
