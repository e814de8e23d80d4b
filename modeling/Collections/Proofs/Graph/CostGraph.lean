import Mathlib
import Collections.Graph.Directed
import Collections.Proofs.Run

/-!
# Graphs with costs

The directed graph that a representation stands for: a finite set of vertices and a
cost for some of the ordered pairs of vertices.  Vertices that the equality test does
not tell apart are one vertex here.
-/

namespace Collections

universe u v w

/-! ## Values up to equality -/

section EqClass

variable {V : Type u} [BEq V] [EquivBEq V]

def EqClass.setoid (V : Type u) [BEq V] [EquivBEq V] : Setoid V where
  r left right := (left == right) = true
  iseqv := ⟨fun _ => BEq.rfl, BEq.symm, BEq.trans⟩

/-- The values of a type, where equal ones are the same. -/
def EqClass (V : Type u) [BEq V] [EquivBEq V] : Type u :=
  Quotient (EqClass.setoid V)

def EqClass.of (value : V) : EqClass V :=
  Quotient.mk (EqClass.setoid V) value

@[simp]
theorem EqClass.of_eq_of_iff {left right : V} : of left = of right ↔ left == right :=
  ⟨fun heq => Quotient.exact (s := EqClass.setoid V) heq,
    fun hequal => Quotient.sound (s := EqClass.setoid V) hequal⟩

theorem EqClass.of_eq_of_iff_symm {left right : V} : of left = of right ↔ right == left := by
  rw [of_eq_of_iff, BEq.comm]

theorem EqClass.exists_of (node : EqClass V) : ∃ value : V, of value = node :=
  Quotient.exists_rep node

instance : DecidableEq (EqClass V) :=
  @Quotient.decidableEq V (EqClass.setoid V) fun left right =>
    inferInstanceAs (Decidable ((left == right) = true))

end EqClass

/-! ## Graphs -/

/-- A finite set of vertices and the costs of the edges between them. -/
structure CostGraph (N : Type u) (E : Type v) where
  vertices : Finset N
  cost? : N → N → Option E
  endpoints : ∀ {source target : N}, (cost? source target).isSome →
    source ∈ vertices ∧ target ∈ vertices

namespace CostGraph

variable {N : Type u} {E : Type v}

def empty : CostGraph N E where
  vertices := ∅
  cost? _ _ := none
  endpoints hedge := by simp at hedge

variable (graph : CostGraph N E)

/-- The pairs of vertices that are joined by an edge. -/
def edges : Finset (N × N) :=
  (graph.vertices ×ˢ graph.vertices).filter fun pair => (graph.cost? pair.1 pair.2).isSome

def edgeCount : Nat :=
  graph.edges.card

/-- The number of edges that leave a vertex. -/
def degree (vertex : N) : Nat :=
  (graph.vertices.filter fun target => (graph.cost? vertex target).isSome).card

/-- The number of edges that lead to a vertex. -/
def incomingDegree (vertex : N) : Nat :=
  (graph.vertices.filter fun source => (graph.cost? source vertex).isSome).card

theorem mem_edges {source target : N} :
    (source, target) ∈ graph.edges ↔ (graph.cost? source target).isSome := by
  simp only [edges, Finset.mem_filter, Finset.mem_product, and_iff_right_iff_imp]
  exact graph.endpoints

theorem edgeCount_eq_sum_degree :
    graph.edgeCount = ∑ vertex ∈ graph.vertices, graph.degree vertex := by
  simp only [edgeCount, edges, degree, Finset.card_filter, Finset.sum_product]

theorem cost?_eq_none_of_source {source : N} (habsent : source ∉ graph.vertices)
    (target : N) : graph.cost? source target = none := by
  cases hcost : graph.cost? source target with
  | none => rfl
  | some cost => exact absurd (graph.endpoints (Option.isSome_of_eq_some hcost)).1 habsent

theorem cost?_eq_none_of_target {target : N} (habsent : target ∉ graph.vertices)
    (source : N) : graph.cost? source target = none := by
  cases hcost : graph.cost? source target with
  | none => rfl
  | some cost => exact absurd (graph.endpoints (Option.isSome_of_eq_some hcost)).2 habsent

variable [DecidableEq N]

/-- The graph with one more vertex, which no edge leaves and none leads to. -/
def insertVertex (vertex : N) : CostGraph N E where
  vertices := insert vertex graph.vertices
  cost? := graph.cost?
  endpoints hedge := by
    obtain ⟨hsource, htarget⟩ := graph.endpoints hedge
    exact ⟨Finset.mem_insert_of_mem hsource, Finset.mem_insert_of_mem htarget⟩

/-- The graph with a cost for one pair of its vertices. -/
def setCost {source target : N} (hsource : source ∈ graph.vertices)
    (htarget : target ∈ graph.vertices) (cost : E) : CostGraph N E where
  vertices := graph.vertices
  cost? first second :=
    if first = source ∧ second = target then some cost else graph.cost? first second
  endpoints hedge := by
    split at hedge
    next hpair => exact ⟨hpair.1 ▸ hsource, hpair.2 ▸ htarget⟩
    next => exact graph.endpoints hedge

/-- The graph without the edge between two vertices. -/
def deleteEdge (source target : N) : CostGraph N E where
  vertices := graph.vertices
  cost? first second :=
    if first = source ∧ second = target then none else graph.cost? first second
  endpoints hedge := by
    split at hedge
    next => simp at hedge
    next => exact graph.endpoints hedge

/-- The graph without a vertex and without the edges that leave it or lead to it. -/
def deleteVertex (vertex : N) : CostGraph N E where
  vertices := graph.vertices.erase vertex
  cost? first second :=
    if first = vertex ∨ second = vertex then none else graph.cost? first second
  endpoints hedge := by
    split at hedge
    next => simp at hedge
    next houtside =>
      obtain ⟨hfirst, hsecond⟩ := graph.endpoints hedge
      rw [not_or] at houtside
      exact ⟨Finset.mem_erase.mpr ⟨houtside.1, hfirst⟩,
        Finset.mem_erase.mpr ⟨houtside.2, hsecond⟩⟩

/-! ## Changes without an effect -/

variable {graph}

omit [DecidableEq N] in
theorem eq_of_vertices_of_costs {other : CostGraph N E}
    (hvertices : graph.vertices = other.vertices) (hcosts : graph.cost? = other.cost?) :
    graph = other := by
  cases graph
  cases other
  cases hvertices
  cases hcosts
  rfl

theorem insertVertex_of_mem {vertex : N} (hpresent : vertex ∈ graph.vertices) :
    graph.insertVertex vertex = graph :=
  eq_of_vertices_of_costs (Finset.insert_eq_of_mem hpresent) rfl

theorem deleteEdge_of_none {source target : N} (habsent : graph.cost? source target = none) :
    graph.deleteEdge source target = graph := by
  apply eq_of_vertices_of_costs
  · rfl
  · funext first second
    rw [deleteEdge]
    dsimp only
    split
    next hpair => rw [hpair.1, hpair.2, habsent]
    next => rfl

theorem deleteVertex_of_notMem {vertex : N} (habsent : vertex ∉ graph.vertices) :
    graph.deleteVertex vertex = graph := by
  apply eq_of_vertices_of_costs
  · exact Finset.erase_eq_of_notMem habsent
  · funext first second
    rw [deleteVertex]
    dsimp only
    split
    next hremoved =>
      rcases hremoved with hsource | htarget
      · rw [hsource, graph.cost?_eq_none_of_source habsent]
      · rw [htarget, graph.cost?_eq_none_of_target habsent]
    next => rfl

end CostGraph

/-! ## Calls -/

/-- A call that can change a graph.  A vertex is added with the memory there is then. -/
inductive GraphCall (V : Type u) (E : Type v) where
  | addVertex (memory : Memory) (vertex : V)
  | addEdge (source target : V) (cost : E)
  | removeEdge (source target : V)
  | removeVertex (vertex : V)
  | clear

/-- What a graph answers to a call. -/
inductive GraphAnswer where
  /-- Whether the vertex is new. -/
  | added (result : Except Fault Bool)
  | connected (result : Except Fault Unit)
  /-- Whether there was something to remove. -/
  | removed (found : Bool)
  | cleared

namespace DirectedGraph

variable {γ : Type u} {V : Type v} {E : Type w} [DirectedGraph γ V E]

def perform (graph : γ) : GraphCall V E → GraphAnswer × γ
  | .addVertex memory vertex =>
    let step := addVertex memory graph vertex
    (.added step.result, step.state)
  | .addEdge source target cost =>
    let result := addEdge graph source target cost
    (.connected result.1, result.2)
  | .removeEdge source target =>
    let result := removeEdge graph source target
    (.removed result.1, result.2)
  | .removeVertex vertex =>
    let result := removeVertex graph vertex
    (.removed result.1, result.2)
  | .clear => (.cleared, clear graph)

end DirectedGraph

namespace CostGraph

variable {V : Type u} {E : Type v} [BEq V] [EquivBEq V] [Literal V]

/-- What the graph answers to a call if it always has room for another vertex. -/
def perform (graph : CostGraph (EqClass V) E) :
    GraphCall V E → GraphAnswer × CostGraph (EqClass V) E
  | .addVertex _ vertex =>
    (.added (.ok (decide (.of vertex ∉ graph.vertices))), graph.insertVertex (.of vertex))
  | .addEdge source target cost =>
    if hsource : .of source ∈ graph.vertices then
      if htarget : .of target ∈ graph.vertices then
        (.connected (.ok ()), graph.setCost hsource htarget cost)
      else
        (.connected (.error (.missing .target target)), graph)
    else
      (.connected (.error (.missing .source source)), graph)
  | .removeEdge source target =>
    (.removed (graph.cost? (.of source) (.of target)).isSome,
      graph.deleteEdge (.of source) (.of target))
  | .removeVertex vertex =>
    (.removed (decide (.of vertex ∈ graph.vertices)), graph.deleteVertex (.of vertex))
  | .clear => (.cleared, empty)

end CostGraph

end Collections
