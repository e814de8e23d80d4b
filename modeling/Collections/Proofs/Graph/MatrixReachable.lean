import Mathlib
import Collections.Proofs.Graph.MatrixCalls
import Collections.Proofs.Graph.MatrixCosts

/-!
# Reachable matrix graphs

Every state that calls lead to, from the standard graph or from one with valid
settings, is coherent.  Its tables hold an edge only where two vertices are joined,
and counting the edges of the vertices, in either direction, counts every edge once.
-/

namespace Collections

universe u v

namespace MatrixGraph

variable {V : Type u} {E : Type v} [BEq V] [Hashable V]

/-! ## Counting edges by vertices -/

section Count

variable {graph : MatrixGraph V E}

theorem degree_of_some {vertex : V} {row : Nat} (hrow : graph.indexOf? vertex = some row) :
    graph.degree vertex = (List.range graph.vertexCount).countP (graph.table.present row) := by
  rw [degree, hrow]

theorem incomingDegree_of_some {vertex : V} {column : Nat}
    (hcolumn : graph.indexOf? vertex = some column) :
    graph.incomingDegree vertex =
      (List.range graph.vertexCount).countP fun row => graph.table.present row column := by
  rw [incomingDegree, hcolumn]

theorem degree_of_none {vertex : V} (habsent : graph.indexOf? vertex = none) :
    graph.degree vertex = 0 ∧ graph.incomingDegree vertex = 0 := by
  rw [degree, incomingDegree, habsent]
  exact ⟨rfl, rfl⟩

variable [Inhabited E]

/-- The edges of a graph lie among the indices in use. -/
theorem Coherent.edgeCells_eq (hcoherent : graph.Coherent) :
    graph.table.edgeCells =
      (Finset.range graph.vertexCount ×ˢ Finset.range graph.vertexCount).filter
        fun place => graph.table.present place.1 place.2 = true := by
  have hcount := hcoherent.vertexCount_le
  ext ⟨row, column⟩
  rw [EdgeTable.mem_edgeCells, Finset.mem_filter, Finset.mem_product, Finset.mem_range,
    Finset.mem_range, EdgeTable.present_eq_isSome hcoherent.table]
  constructor
  · rintro ⟨⟨hrow, hcolumn⟩, hedge⟩
    exact ⟨hcoherent.lt_of_edge hrow hcolumn hedge, hedge⟩
  · rintro ⟨⟨hrow, hcolumn⟩, hedge⟩
    exact ⟨⟨Nat.lt_of_lt_of_le hrow hcount, Nat.lt_of_lt_of_le hcolumn hcount⟩, hedge⟩

theorem sum_map_range (measure : Nat → Nat) (count : Nat) :
    ((List.range count).map measure).sum = ∑ index ∈ Finset.range count, measure index := by
  rw [Finset.sum, Finset.range_val, Multiset.range, Multiset.map_coe, Multiset.sum_coe]

variable [EquivBEq V]

/-- A sum over the vertices is a sum over the indices in use. -/
theorem Coherent.sum_vertices (hcoherent : graph.Coherent) (measure : V → Nat)
    (byIndex : Nat → Nat)
    (hmeasure : ∀ vertex index, graph.indexOf? vertex = some index →
      measure vertex = byIndex index) :
    (graph.vertices.toList.map measure).sum =
      ∑ index ∈ Finset.range graph.vertexCount, byIndex index := by
  rw [← sum_map_range]
  congr 1
  apply List.ext_getElem
  · simp [vertexCount]
  · intro index hindex _
    rw [List.length_map, Array.length_toList] at hindex
    rw [List.getElem_map, List.getElem_map, List.getElem_range, Array.getElem_toList]
    apply hmeasure
    rw [hcoherent.index_iff]
    exact holds_self (Array.getElem?_eq_getElem hindex)

theorem Coherent.sum_degree (hcoherent : graph.Coherent) :
    (graph.vertices.toList.map graph.degree).sum = graph.edgeCount := by
  rw [hcoherent.sum_vertices graph.degree _ fun vertex row hrow => degree_of_some hrow,
    hcoherent.edgeCount_eq, hcoherent.edgeCells_eq]
  simp only [EdgeTable.countP_range_eq_card, Finset.card_filter, Finset.sum_product]

theorem Coherent.sum_incomingDegree (hcoherent : graph.Coherent) :
    (graph.vertices.toList.map graph.incomingDegree).sum = graph.edgeCount := by
  rw [hcoherent.sum_vertices graph.incomingDegree _
      fun vertex column hcolumn => incomingDegree_of_some hcolumn,
    hcoherent.edgeCount_eq, hcoherent.edgeCells_eq]
  simp only [EdgeTable.countP_range_eq_card, Finset.card_filter, Finset.sum_product_right]

end Count

/-! ## Reachable graphs -/

section Reach

variable [Inhabited E] [ByteSize E]

/-- A new graph, of the standard capacity or with settings for which memory was granted. -/
def Initial (graph : MatrixGraph V E) : Prop :=
  graph = empty ∨ ∃ memory settings, withSettings memory settings = .ok graph

/-- The graphs that any calls lead to. -/
def Reachable [Literal V] (graph : MatrixGraph V E) : Prop :=
  Calls.Reachable Initial DirectedGraph.perform graph

/-- With a valid capacity a new graph fails only as its tables do. -/
theorem withCapacity_of_valid {memory : Memory} {capacity : UInt64}
    (hvalid : MatrixSettings.validate ⟨capacity⟩ = .ok ()) :
    (withCapacity memory capacity : Except Fault (MatrixGraph V E)) =
      (EdgeTable.reserve E memory capacity).map fun _ => ofTable (.blank capacity) := by
  rw [withCapacity, withSettings, hvalid]
  dsimp only
  rw [EdgeTable.allocate]
  cases EdgeTable.reserve E memory capacity with
  | ok granted => rfl
  | error fault => rfl

theorem withSettings_eq_ok {memory : Memory} {settings : MatrixSettings}
    {graph : MatrixGraph V E} (hgraph : withSettings memory settings = .ok graph) :
    settings.initialCapacity ≠ 0 ∧
      EdgeTable.reserve E memory settings.initialCapacity = .ok () ∧
        graph = ofTable (.blank settings.initialCapacity) := by
  rw [withSettings] at hgraph
  split at hgraph
  next hvalid =>
    constructor
    · intro hzero
      simp [MatrixSettings.validate, hzero] at hvalid
    · rw [EdgeTable.allocate] at hgraph
      cases hreserve : EdgeTable.reserve E memory settings.initialCapacity with
      | error fault => simp [hreserve, Except.map] at hgraph
      | ok granted => simpa [hreserve, Except.map] using hgraph.symm
  next => simp at hgraph

variable [EquivBEq V] [LawfulHashable V]

theorem Initial.coherent {graph : MatrixGraph V E} (hinitial : graph.Initial) :
    graph.Coherent := by
  rcases hinitial with rfl | ⟨memory, settings, hgraph⟩
  · exact coherent_ofTable (by decide)
  · obtain ⟨hcapacity, -, rfl⟩ := withSettings_eq_ok hgraph
    apply coherent_ofTable
    apply Nat.pos_of_ne_zero
    intro hzero
    exact hcapacity (UInt64.toNat_inj.mp hzero)

omit [ByteSize E] in
/-- A vertex that was just appended has no edges in either direction. -/
theorem Coherent.hasEdge_append {graph : MatrixGraph V E} (hcoherent : graph.Coherent)
    (hroom : graph.vertexCount < graph.table.side) {added : V}
    (habsent : graph.hasVertex added = false) (other : V) :
    (graph.append added).hasEdge added other = false ∧
      (graph.append added).hasEdge other added = false := by
  have happended := hcoherent.append habsent hroom
  rw [happended.hasEdge_eq_isSome, happended.hasEdge_eq_isSome,
    hcoherent.edgeCost?_append hroom, hcoherent.edgeCost?_append hroom]
  simp

theorem Coherent.added_isolated {graph : MatrixGraph V E} (hcoherent : graph.Coherent)
    {memory : Memory} {vertex : V}
    (hadded : (graph.addVertex memory vertex).result = .ok true) (other : V) :
    (graph.addVertex memory vertex).state.hasEdge vertex other = false ∧
      (graph.addVertex memory vertex).state.hasEdge other vertex = false := by
  rcases addVertex_cases memory graph vertex with
    ⟨-, hstep⟩ | ⟨habsent, hroom, hstep⟩ |
      ⟨habsent, hfull, larger, htwice, -, hstep⟩ | ⟨-, -, -, fault, hstep⟩ <;>
    rw [hstep] at hadded ⊢
  · simp [Step.quiet] at hadded
  · apply hcoherent.hasEdge_append _ habsent
    exact Nat.lt_of_le_of_ne hcoherent.vertexCount_le hroom
  · obtain ⟨hlarger, hroom⟩ := hcoherent.lt_of_twice htwice
    exact (hcoherent.enlarge hlarger).hasEdge_append hroom habsent other
  · simp [Step.quiet] at hadded

variable [Literal V]

theorem Reachable.coherent {graph : MatrixGraph V E} (hreached : graph.Reachable) :
    graph.Coherent := by
  refine Calls.Reachable.invariant ?_ ?_ hreached
  · exact fun state hinitial => hinitial.coherent
  · exact fun state call hcoherent => hcoherent.perform call

/-- The representation of a graph: square tables, gap-free indices, and edges that are
counted once and lie between vertices only. -/
structure Dense (graph : MatrixGraph V E) : Prop where
  size_presence : graph.table.presence.size = graph.capacity.toNat * graph.capacity.toNat
  size_costs : graph.table.costs.size = graph.capacity.toNat * graph.capacity.toNat
  vertexCount_le : graph.vertexCount ≤ graph.capacity.toNat
  /-- The index of the vertices and the list of the vertices are inverse to each other. -/
  inverse : ∀ vertex index, graph.indexOf? vertex = some index ↔
    ∃ stored, graph.vertexAt? index = some stored ∧ stored == vertex
  size_index : graph.index.size = graph.vertexCount
  /-- The indices in use are the numbers below the number of vertices. -/
  gapFree : ∀ index, (∃ vertex, graph.indexOf? vertex = some index) ↔
    index < graph.vertexCount
  /-- No flag is set in a row or a column that no vertex has. -/
  unusedPresence : ∀ row column, row < graph.capacity.toNat → column < graph.capacity.toNat →
    graph.vertexCount ≤ row ∨ graph.vertexCount ≤ column →
      graph.table.presence[graph.table.cell row column]? = some false
  absentCost : ∀ place : Nat, graph.table.presence[place]? = some false →
    graph.table.costs[place]? = some (default : E)
  edgeCount_eq_count : graph.edgeCount = graph.table.presence.count true
  edgeCount_eq_sum_degree : graph.edgeCount = (graph.vertices.toList.map graph.degree).sum
  edgeCount_eq_sum_incomingDegree :
    graph.edgeCount = (graph.vertices.toList.map graph.incomingDegree).sum
  /-- An added vertex has no edges, whatever its index was used for before. -/
  added_isolated : ∀ memory vertex, (graph.addVertex memory vertex).result = .ok true →
    ∀ other, (graph.addVertex memory vertex).state.hasEdge vertex other = false ∧
      (graph.addVertex memory vertex).state.hasEdge other vertex = false
  /-- Without vertices nothing is left in the tables. -/
  cleared : graph.vertexCount = 0 →
    graph.edgeCount = 0 ∧ ∀ flag ∈ graph.table.presence, flag = false

/-- Every state of a graph is dense, also after calls that were refused. -/
theorem Reachable.dense {graph : MatrixGraph V E} (hreached : graph.Reachable) :
    graph.Dense := by
  have hcoherent := hreached.coherent
  have hcount := hcoherent.edgeCount_eq.trans (EdgeTable.card_edgeCells hcoherent.table)
  exact {
    size_presence := hcoherent.table.size_presence
    size_costs := hcoherent.table.size_costs
    vertexCount_le := hcoherent.vertexCount_le
    inverse := hcoherent.index_iff
    size_index := hcoherent.size_index
    gapFree := by
      intro index
      constructor
      · rintro ⟨vertex, hindex⟩
        exact hcoherent.lt_vertexCount hindex
      · intro hindex
        refine ⟨graph.vertices[index], ?_⟩
        rw [hcoherent.index_iff]
        exact holds_self (Array.getElem?_eq_getElem hindex)
    unusedPresence := by
      intro row column hrow hcolumn hunused
      apply EdgeTable.getElem?_presence_of_none hcoherent.table hrow hcolumn
      rcases hunused with hrowUnused | hcolumnUnused
      · exact (hcoherent.unused row hrowUnused hrow column hcolumn).1
      · exact (hcoherent.unused column hcolumnUnused hcolumn row hrow).2
    absentCost := hcoherent.table.absent_cost
    edgeCount_eq_count := hcount
    edgeCount_eq_sum_degree := hcoherent.sum_degree.symm
    edgeCount_eq_sum_incomingDegree := hcoherent.sum_incomingDegree.symm
    added_isolated := fun memory vertex hadded other => hcoherent.added_isolated hadded other
    cleared := by
      intro hempty
      have hnone : graph.edgeCount = 0 := by
        rw [hcoherent.edgeCount_eq, hcoherent.edgeCells_eq, hempty]
        rfl
      refine ⟨hnone, ?_⟩
      intro flag hflag
      rw [hcount, Array.count_eq_zero] at hnone
      cases flag with
      | false => rfl
      | true => exact absurd hflag hnone }

/-- Calls in which the table grows twice and the vertex with the last index moves to the
first one with its edges before the last index is used again. -/
def relocatingCalls : List (GraphCall Nat Int64) :=
  [.addVertex .unlimited 1, .addVertex .unlimited 2, .addVertex .unlimited 3,
    .addEdge 3 1 5, .addEdge 3 3 7, .addEdge 2 3 9, .removeVertex 1,
    .addVertex .unlimited 4]

theorem dense_relocatingCalls :
    ∃ graph : MatrixGraph Nat Int64, graph.Reachable ∧ graph.indexOf? 3 = some 0 ∧
      graph.indexOf? 4 = some 2 ∧ graph.edgeCount = 2 ∧ graph.Dense := by
  have hinitial : Initial (ofTable (.blank 1) : MatrixGraph Nat Int64) :=
    Or.inr ⟨.unlimited, ⟨1⟩, by rfl⟩
  have hreached : Reachable (Calls.run DirectedGraph.perform
      (ofTable (.blank 1) : MatrixGraph Nat Int64) relocatingCalls).2 :=
    Calls.Reachable.run relocatingCalls (.start hinitial)
  exact ⟨_, hreached, by cbv, by cbv, by cbv, hreached.dense⟩

end Reach

end MatrixGraph

end Collections
