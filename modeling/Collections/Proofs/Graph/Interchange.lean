import Mathlib
import Collections.Proofs.Graph.CostGraph
import Collections.Proofs.DistinctKeys

/-!
# Graphs that can stand for each other

In a graph whose answers fit together, the vertices and the costs decide all other
questions.  So two such graphs with the same vertices and the same costs cannot be told
apart, except by the instances of their vertices and by the order in which they list them.
-/

namespace Collections

universe u v w x

namespace DirectedGraph

variable {γ : Type u} {δ : Type v} {V : Type w} {E : Type x}

/-- The answers of a graph fit together: the listed vertices are those that it has, and the
listed edges are those that have a cost, each listed once and counted once. -/
structure Consistent [DirectedGraph γ V E] [BEq V] (graph : γ) : Prop where
  hasEdge_eq : ∀ source target : V,
    hasEdge graph source target = (edgeCost? graph source target).isSome
  vertexCount_eq : vertexCount graph = (vertices graph).length
  degree_eq : ∀ vertex : V, degree graph vertex = (edges graph vertex).length
  /-- Equal vertices have as many edges. -/
  degree_congr : ∀ first second : V, (first == second) = true →
    degree graph first = degree graph second
  edgeCount_eq : edgeCount graph = ((vertices graph).map (degree graph)).sum
  distinct_vertices : (vertices graph).Pairwise fun first second => ¬ (first == second) = true
  mem_vertices : ∀ vertex : V, hasVertex graph vertex = true ↔
    ∃ stored ∈ vertices graph, (stored == vertex) = true
  distinct_edges : ∀ vertex : V, DistinctKeys (edges graph vertex)
  mem_edges : ∀ (source target : V) (cost : E), edgeCost? graph source target = some cost ↔
    ∃ stored, (stored, cost) ∈ edges graph source ∧ (stored == target) = true

/-- Two graphs that answer every question alike.  What they list is the same up to its order
and to the instances of the vertices. -/
structure Interchangeable [DirectedGraph γ V E] [DirectedGraph δ V E] [BEq V] [EquivBEq V]
    (graph : γ) (other : δ) : Prop where
  hasVertex : ∀ vertex : V, hasVertex graph vertex = hasVertex other vertex
  hasEdge : ∀ source target : V, hasEdge graph source target = hasEdge other source target
  edgeCost : ∀ source target : V,
    edgeCost? graph source target = edgeCost? other source target
  degree : ∀ vertex : V, degree graph vertex = degree other vertex
  vertexCount : vertexCount graph = vertexCount other
  edgeCount : edgeCount graph = edgeCount other
  isEmpty : isEmpty graph = isEmpty other
  vertices : ((vertices graph).map EqClass.of).Perm ((vertices other).map EqClass.of)
  edges : ∀ vertex : V, ((edges graph vertex).map (Prod.map EqClass.of id)).Perm
    ((edges other vertex).map (Prod.map EqClass.of id))
  neighbors : ∀ vertex : V, ((neighbors graph vertex).map EqClass.of).Perm
    ((neighbors other vertex).map EqClass.of)

/-- The answers of two graphs to one call, of which the first ignores a vertex that it already
has and the second refuses it. -/
inductive AnswersMatch : GraphAnswer → GraphAnswer → Prop
  | new : AnswersMatch (.added (.ok true)) (.added (.ok true))
  | known (vertex : String) :
      AnswersMatch (.added (.ok false)) (.added (.error (.duplicateVertex vertex)))
  | connected : AnswersMatch (.connected (.ok ())) (.connected (.ok ()))
  | missing (side : EdgeEnd) (vertex : String) :
      AnswersMatch (.connected (.error (.missingVertex side vertex)))
        (.connected (.error (.missingVertex side vertex)))
  | removed (found : Bool) : AnswersMatch (.removed found) (.removed found)
  | cleared : AnswersMatch .cleared .cleared

section Lists

variable [DirectedGraph γ V E] [BEq V] [EquivBEq V] {graph : γ}

theorem Consistent.nodup_vertices (hconsistent : Consistent graph) :
    ((vertices graph).map (EqClass.of : V → EqClass V)).Nodup := by
  rw [List.Nodup, List.pairwise_map]
  apply List.Pairwise.imp _ hconsistent.distinct_vertices
  intro first second hdifferent hsame
  exact hdifferent (EqClass.of_eq_of_iff.mp hsame)

theorem Consistent.of_mem_vertices_iff (hconsistent : Consistent graph) (vertex : V) :
    EqClass.of vertex ∈ (vertices graph).map EqClass.of ↔ hasVertex graph vertex = true := by
  rw [hconsistent.mem_vertices, List.mem_map]
  simp only [EqClass.of_eq_of_iff]

theorem Consistent.nodup_edges (hconsistent : Consistent graph) (vertex : V) :
    ((edges graph vertex).map (Prod.map (EqClass.of : V → EqClass V) id)).Nodup := by
  rw [List.Nodup, List.pairwise_map]
  apply List.Pairwise.imp _ (hconsistent.distinct_edges vertex)
  intro first second hdifferent hsame
  exact hdifferent (EqClass.of_eq_of_iff.mp (congrArg Prod.fst hsame))

theorem Consistent.of_mem_edges_iff (hconsistent : Consistent graph) (source target : V)
    (cost : E) :
    (EqClass.of target, cost) ∈ (edges graph source).map (Prod.map EqClass.of id) ↔
      edgeCost? graph source target = some cost := by
  rw [hconsistent.mem_edges, List.mem_map]
  constructor
  · intro hmem
    obtain ⟨⟨stored, found⟩, hstored, hsame⟩ := hmem
    obtain ⟨htarget, hcost⟩ := Prod.mk.inj hsame
    exact ⟨stored, hcost ▸ hstored, EqClass.of_eq_of_iff.mp htarget⟩
  · intro hmem
    obtain ⟨stored, hstored, htarget⟩ := hmem
    exact ⟨(stored, cost), hstored, Prod.ext (EqClass.of_eq_of_iff.mpr htarget) rfl⟩

/-- A count that is the same for equal vertices, as a count of the class of a vertex. -/
def countOf (measure : V → Nat)
    (hmeasure : ∀ first second : V, (first == second) = true → measure first = measure second) :
    EqClass V → Nat :=
  Quotient.lift measure hmeasure

theorem Consistent.edgeCount_eq_sum (hconsistent : Consistent graph) {measure : V → Nat}
    (hmeasure : ∀ first second : V, (first == second) = true → measure first = measure second)
    (hdegree : ∀ vertex, degree graph vertex = measure vertex) :
    edgeCount graph =
      (((vertices graph).map EqClass.of).map (countOf measure hmeasure)).sum := by
  rw [hconsistent.edgeCount_eq, List.map_map]
  congr 1
  apply List.map_congr_left
  intro vertex _
  exact hdegree vertex

end Lists

variable [DirectedGraph γ V E] [DirectedGraph δ V E] [BEq V] [EquivBEq V]
variable {graph : γ} {other : δ}

/-- The vertices and the costs decide all answers. -/
theorem Consistent.interchangeable (hgraph : Consistent graph) (hother : Consistent other)
    (hvertices : ∀ vertex : V, hasVertex graph vertex = hasVertex other vertex)
    (hcosts : ∀ source target : V,
      edgeCost? graph source target = edgeCost? other source target) :
    Interchangeable graph other := by
  have hlisted : ((vertices graph).map (EqClass.of : V → EqClass V)).Perm
      ((vertices other).map EqClass.of) := by
    rw [List.perm_ext_iff_of_nodup hgraph.nodup_vertices hother.nodup_vertices]
    intro node
    obtain ⟨vertex, hvertex⟩ := node.exists_of
    rw [← hvertex, hgraph.of_mem_vertices_iff, hother.of_mem_vertices_iff, hvertices]
  have hedges : ∀ vertex : V, ((edges graph vertex).map (Prod.map EqClass.of id)).Perm
      ((edges other vertex).map (Prod.map EqClass.of id)) := by
    intro vertex
    rw [List.perm_ext_iff_of_nodup (hgraph.nodup_edges vertex) (hother.nodup_edges vertex)]
    intro ⟨node, cost⟩
    obtain ⟨target, htarget⟩ := node.exists_of
    rw [← htarget, hgraph.of_mem_edges_iff, hother.of_mem_edges_iff, hcosts]
  have hdegrees : ∀ vertex : V, degree graph vertex = degree other vertex := by
    intro vertex
    rw [hgraph.degree_eq, hother.degree_eq]
    simpa using (hedges vertex).length_eq
  have hcount : vertexCount graph = vertexCount other := by
    rw [hgraph.vertexCount_eq, hother.vertexCount_eq]
    simpa using hlisted.length_eq
  exact {
    hasVertex := hvertices
    hasEdge := by
      intro source target
      rw [hgraph.hasEdge_eq, hother.hasEdge_eq, hcosts]
    edgeCost := hcosts
    degree := hdegrees
    vertexCount := hcount
    edgeCount := by
      rw [hgraph.edgeCount_eq_sum hgraph.degree_congr fun _ => rfl,
        hother.edgeCount_eq_sum hgraph.degree_congr fun vertex => (hdegrees vertex).symm]
      exact (hlisted.map _).sum_eq
    isEmpty := by rw [DirectedGraph.isEmpty, DirectedGraph.isEmpty, hcount]
    vertices := hlisted
    edges := hedges
    neighbors := by
      intro vertex
      have hkeys := (hedges vertex).map Prod.fst
      rw [List.map_map, List.map_map] at hkeys
      rw [DirectedGraph.neighbors, DirectedGraph.neighbors, List.map_map, List.map_map]
      exact hkeys }

end DirectedGraph

end Collections
