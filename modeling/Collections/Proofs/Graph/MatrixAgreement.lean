import Mathlib
import Collections.Proofs.Graph.MatrixReachable

/-!
# Matrix graphs stand for graphs with costs

A matrix graph depicts the graph that has its vertices and its costs.  The vertices and
the costs decide all other questions, such as the degrees and the number of the edges,
so a matrix graph agrees with every graph that it depicts.
-/

namespace Collections

universe u v

namespace MatrixGraph

variable {V : Type u} {E : Type v} [BEq V] [Hashable V] [EquivBEq V]

/-- The vertices are those of the model, and so are the costs of the edges. -/
structure Depicts (graph : MatrixGraph V E) (model : CostGraph (EqClass V) E) : Prop where
  vertices : ∀ vertex, graph.hasVertex vertex = decide (.of vertex ∈ model.vertices)
  costs : ∀ source target,
    graph.edgeCost? source target = model.cost? (.of source) (.of target)

/-- Every question about the graph has the answer that it has about the model. -/
structure Agrees (graph : MatrixGraph V E) (model : CostGraph (EqClass V) E) : Prop where
  hasVertex : ∀ vertex, graph.hasVertex vertex = decide (.of vertex ∈ model.vertices)
  hasEdge : ∀ source target,
    graph.hasEdge source target = (model.cost? (.of source) (.of target)).isSome
  edgeCost : ∀ source target,
    graph.edgeCost? source target = model.cost? (.of source) (.of target)
  vertexCount : graph.vertexCount = model.vertices.card
  edgeCount : graph.edgeCount = model.edgeCount
  degree : ∀ vertex, graph.degree vertex = model.degree (.of vertex)
  incomingDegree : ∀ vertex,
    graph.incomingDegree vertex = model.incomingDegree (.of vertex)

section Lookup

variable [LawfulHashable V] {graph : MatrixGraph V E} {model : CostGraph (EqClass V) E}

theorem Depicts.indexOf?_eq_none_iff (hdepicts : graph.Depicts model) (vertex : V) :
    graph.indexOf? vertex = none ↔ .of vertex ∉ model.vertices := by
  have hpresent := hdepicts.vertices vertex
  rw [hasVertex_eq_isSome] at hpresent
  rw [← Option.not_isSome_iff_eq_none, hpresent, decide_eq_true_eq]

theorem Depicts.mem_of_some (hdepicts : graph.Depicts model) {vertex : V} {index : Nat}
    (hindex : graph.indexOf? vertex = some index) : .of vertex ∈ model.vertices := by
  by_contra habsent
  rw [(hdepicts.indexOf?_eq_none_iff vertex).mpr habsent] at hindex
  simp at hindex

end Lookup

/-! ## Counting -/

section Count

variable [Inhabited E] {graph : MatrixGraph V E} {model : CostGraph (EqClass V) E}

/-- The vertex of the model at an index. -/
def nodeAt (graph : MatrixGraph V E) (index : Fin graph.vertexCount) : EqClass V :=
  .of graph.vertices[index]

theorem nodeAt_eq_iff (hcoherent : graph.Coherent) (index : Fin graph.vertexCount)
    (vertex : V) : graph.nodeAt index = .of vertex ↔ graph.indexOf? vertex = some index.val := by
  rw [nodeAt, EqClass.of_eq_of_iff, hcoherent.index_iff, Holds]
  have hstored : graph.vertices[index.val]? = some graph.vertices[index] :=
    Array.getElem?_eq_getElem index.isLt
  rw [hstored]
  simp

theorem nodeAt_injective (hcoherent : graph.Coherent) : Function.Injective graph.nodeAt := by
  intro first second heq
  have hfirst := (nodeAt_eq_iff hcoherent first graph.vertices[second]).mp heq
  have hsecond := (nodeAt_eq_iff hcoherent second graph.vertices[second]).mp rfl
  rw [hfirst, Option.some.injEq] at hsecond
  exact Fin.ext hsecond

theorem Depicts.cost?_nodeAt (hdepicts : graph.Depicts model) (hcoherent : graph.Coherent)
    (row column : Fin graph.vertexCount) :
    model.cost? (graph.nodeAt row) (graph.nodeAt column) = graph.table.edge? row column := by
  have hrow := (nodeAt_eq_iff hcoherent row graph.vertices[row]).mp rfl
  have hcolumn := (nodeAt_eq_iff hcoherent column graph.vertices[column]).mp rfl
  rw [nodeAt, nodeAt, ← hdepicts.costs, edgeCost?_eq_bind, hrow, hcolumn, Option.bind_some,
    Option.bind_some]

variable [LawfulHashable V]

/-- The vertices of the model are those that stand at the indices in use. -/
theorem Depicts.vertices_eq (hdepicts : graph.Depicts model) (hcoherent : graph.Coherent) :
    model.vertices = Finset.univ.image graph.nodeAt := by
  ext node
  obtain ⟨vertex, rfl⟩ := node.exists_of
  have hpresent := hdepicts.vertices vertex
  rw [hasVertex_eq_isSome] at hpresent
  simp only [Finset.mem_image, Finset.mem_univ, true_and, nodeAt_eq_iff hcoherent]
  constructor
  · intro hmem
    rw [decide_eq_true hmem] at hpresent
    obtain ⟨index, hindex⟩ := Option.isSome_iff_exists.mp hpresent
    exact ⟨⟨index, hcoherent.lt_vertexCount hindex⟩, hindex⟩
  · rintro ⟨index, hindex⟩
    rw [hindex, Option.isSome_some, eq_comm, decide_eq_true_eq] at hpresent
    exact hpresent

/-- Counting the vertices of the model that pass a test is counting indices. -/
theorem Depicts.card_filter (hdepicts : graph.Depicts model) (hcoherent : graph.Coherent)
    (test : EqClass V → Prop) [DecidablePred test] (byIndex : Nat → Bool)
    (htest : ∀ index : Fin graph.vertexCount,
      test (graph.nodeAt index) ↔ byIndex index = true) :
    (model.vertices.filter test).card = (List.range graph.vertexCount).countP byIndex := by
  rw [hdepicts.vertices_eq hcoherent, Finset.filter_image,
    Finset.card_image_of_injective _ (nodeAt_injective hcoherent),
    EdgeTable.countP_range_eq_card]
  apply Finset.card_bij fun index _ => index.val
  · intro index hmem
    rw [Finset.mem_filter] at hmem
    rw [Finset.mem_filter, Finset.mem_range]
    exact ⟨index.isLt, (htest index).mp hmem.2⟩
  · intro first _ second _ heq
    exact Fin.ext heq
  · intro index hmem
    rw [Finset.mem_filter, Finset.mem_range] at hmem
    refine ⟨⟨index, hmem.1⟩, ?_, rfl⟩
    rw [Finset.mem_filter]
    exact ⟨Finset.mem_univ _, (htest ⟨index, hmem.1⟩).mpr hmem.2⟩

theorem Depicts.degree_nodeAt (hdepicts : graph.Depicts model) (hcoherent : graph.Coherent)
    (row : Fin graph.vertexCount) :
    model.degree (graph.nodeAt row) =
      (List.range graph.vertexCount).countP (graph.table.present row) := by
  apply hdepicts.card_filter hcoherent
  intro column
  rw [hdepicts.cost?_nodeAt hcoherent, EdgeTable.present_eq_isSome hcoherent.table]

theorem Depicts.incomingDegree_nodeAt (hdepicts : graph.Depicts model)
    (hcoherent : graph.Coherent) (column : Fin graph.vertexCount) :
    model.incomingDegree (graph.nodeAt column) =
      (List.range graph.vertexCount).countP fun row => graph.table.present row column := by
  apply hdepicts.card_filter hcoherent
  intro row
  rw [hdepicts.cost?_nodeAt hcoherent, EdgeTable.present_eq_isSome hcoherent.table]

theorem Depicts.edgeCount_eq (hdepicts : graph.Depicts model) (hcoherent : graph.Coherent) :
    graph.edgeCount = model.edgeCount := by
  calc
    graph.edgeCount = graph.table.edgeCells.card := hcoherent.edgeCount_eq
    _ = ∑ row ∈ Finset.range graph.vertexCount,
          (List.range graph.vertexCount).countP (graph.table.present row) := by
      rw [hcoherent.edgeCells_eq]
      simp only [EdgeTable.countP_range_eq_card, Finset.card_filter, Finset.sum_product]
    _ = ∑ row : Fin graph.vertexCount, model.degree (graph.nodeAt row) := by
      rw [Finset.sum_range]
      apply Finset.sum_congr rfl
      intro row _
      exact (hdepicts.degree_nodeAt hcoherent row).symm
    _ = ∑ vertex ∈ model.vertices, model.degree vertex := by
      rw [hdepicts.vertices_eq hcoherent,
        Finset.sum_image fun _ _ _ _ heq => nodeAt_injective hcoherent heq]
    _ = model.edgeCount := model.edgeCount_eq_sum_degree.symm

/-- Vertices and costs decide all answers. -/
theorem Depicts.agrees (hdepicts : graph.Depicts model) (hcoherent : graph.Coherent) :
    graph.Agrees model where
  hasVertex := hdepicts.vertices
  hasEdge := by
    intro source target
    rw [hcoherent.hasEdge_eq_isSome, hdepicts.costs]
  edgeCost := hdepicts.costs
  vertexCount := by
    rw [hdepicts.vertices_eq hcoherent,
      Finset.card_image_of_injective _ (nodeAt_injective hcoherent), Finset.card_univ,
      Fintype.card_fin]
  edgeCount := hdepicts.edgeCount_eq hcoherent
  degree := by
    intro vertex
    cases hindex : graph.indexOf? vertex with
    | none =>
        have habsent := (hdepicts.indexOf?_eq_none_iff vertex).mp hindex
        rw [(degree_of_none hindex).1, CostGraph.degree]
        simp [model.cost?_eq_none_of_source habsent]
    | some row =>
        have hrow := hcoherent.lt_vertexCount hindex
        rw [degree_of_some hindex,
          ← (nodeAt_eq_iff hcoherent ⟨row, hrow⟩ vertex).mpr hindex,
          hdepicts.degree_nodeAt hcoherent]
  incomingDegree := by
    intro vertex
    cases hindex : graph.indexOf? vertex with
    | none =>
        have habsent := (hdepicts.indexOf?_eq_none_iff vertex).mp hindex
        rw [(degree_of_none hindex).2, CostGraph.incomingDegree]
        simp [model.cost?_eq_none_of_target habsent]
    | some column =>
        have hcolumn := hcoherent.lt_vertexCount hindex
        rw [incomingDegree_of_some hindex,
          ← (nodeAt_eq_iff hcoherent ⟨column, hcolumn⟩ vertex).mpr hindex,
          hdepicts.incomingDegree_nodeAt hcoherent]

end Count

end MatrixGraph

end Collections
