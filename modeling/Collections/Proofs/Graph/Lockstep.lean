import Mathlib
import Collections.Proofs.Graph.ListAgreement
import Collections.Proofs.Graph.MatrixRuns

/-!
# Matrix graphs and list graphs in lockstep

A matrix graph and a list graph that are given the same calls give matching answers and
can stand for each other, as long as the matrix graph is granted the memory it asks for.
Both follow the graph with costs that they stand for, which is what relates them.
-/

namespace Collections

universe u v

namespace MatrixGraph

variable {V : Type u} {E : Type v} [BEq V] [Hashable V]

/-! ## Vertices and edges as they are listed -/

section Listing

variable [Inhabited E] {graph : MatrixGraph V E}

omit [Inhabited E] in
theorem edgeAt?_eq_some_iff {row column : Nat} {target : V} {cost : E} :
    graph.edgeAt? row column = some (target, cost) ↔
      graph.vertices[column]? = some target ∧ graph.table.edge? row column = some cost := by
  rw [edgeAt?, vertexAt?]
  cases graph.vertices[column]? with
  | none => simp
  | some stored =>
      cases graph.table.edge? row column <;> simp

omit [Inhabited E] in
/-- The listed edges are those in the row of the vertex, by the vertices of their columns. -/
theorem mem_edges_of_some {source : V} {row : Nat} (hrow : graph.indexOf? source = some row)
    (target : V) (cost : E) :
    (target, cost) ∈ graph.edges source ↔
      ∃ column, graph.vertices[column]? = some target ∧
        graph.table.edge? row column = some cost := by
  rw [edges, hrow, List.mem_filterMap]
  simp only [edgeAt?_eq_some_iff, List.mem_range, vertexCount]
  constructor
  · intro hmem
    obtain ⟨column, -, hedge⟩ := hmem
    exact ⟨column, hedge⟩
  · intro hmem
    obtain ⟨column, htarget, hcost⟩ := hmem
    exact ⟨column, (Array.getElem?_eq_some_iff.mp htarget).1, htarget, hcost⟩

theorem Coherent.mem_edges (hcoherent : graph.Coherent) (source target : V) (cost : E) :
    graph.edgeCost? source target = some cost ↔
      ∃ stored, (stored, cost) ∈ graph.edges source ∧ (stored == target) = true := by
  rw [edgeCost?_eq_bind]
  cases hrow : graph.indexOf? source with
  | none => simp [edges, hrow]
  | some row =>
      simp only [Option.bind_some, Option.bind_eq_some_iff, mem_edges_of_some hrow,
        hcoherent.index_iff, Holds]
      constructor
      · intro hcost
        obtain ⟨column, ⟨stored, hstored, hsame⟩, hedge⟩ := hcost
        exact ⟨stored, ⟨column, hstored, hedge⟩, hsame⟩
      · intro hlisted
        obtain ⟨stored, ⟨column, hstored, hedge⟩, hsame⟩ := hlisted
        exact ⟨column, ⟨stored, hstored, hsame⟩, hedge⟩

/-- Counting the flags of a row is counting its edges. -/
theorem Coherent.degree_eq_length (hcoherent : graph.Coherent) (vertex : V) :
    graph.degree vertex = (graph.edges vertex).length := by
  rw [degree, edges]
  cases hrow : graph.indexOf? vertex with
  | none => rfl
  | some row =>
      dsimp only
      rw [List.length_filterMap_eq_countP]
      apply List.countP_congr
      intro column hcolumn
      have hbound : column < graph.vertices.size := List.mem_range.mp hcolumn
      have hstored : graph.vertexAt? column = some graph.vertices[column] :=
        Array.getElem?_eq_getElem hbound
      rw [EdgeTable.present_eq_isSome hcoherent.table, edgeAt?, hstored, Option.bind_some,
        Option.isSome_map]

variable [EquivBEq V]

/-- Vertices at different indices are different. -/
theorem Coherent.eq_of_equal (hcoherent : graph.Coherent) {first second : Nat} {vertex other : V}
    (hvertex : graph.vertices[first]? = some vertex)
    (hother : graph.vertices[second]? = some other) (hsame : (vertex == other) = true) :
    first = second := by
  have hfirst := (hcoherent.index_iff other first).mpr ⟨vertex, hvertex, hsame⟩
  have hsecond := (hcoherent.index_iff other second).mpr (holds_self hother)
  exact Option.some.inj (hfirst.symm.trans hsecond)

theorem Coherent.distinct_vertices (hcoherent : graph.Coherent) :
    graph.vertices.toList.Pairwise fun first second => ¬ (first == second) = true := by
  rw [List.pairwise_iff_getElem]
  intro first second hfirst hsecond hlt hsame
  have hindices := hcoherent.eq_of_equal (Array.getElem?_eq_getElem hfirst)
    (Array.getElem?_eq_getElem hsecond) hsame
  exact Nat.ne_of_lt hlt hindices

theorem Coherent.distinct_edges (hcoherent : graph.Coherent) (vertex : V) :
    DistinctKeys (graph.edges vertex) := by
  rw [edges]
  cases hrow : graph.indexOf? vertex with
  | none => exact List.Pairwise.nil
  | some row =>
      dsimp only
      rw [DistinctKeys, List.pairwise_filterMap]
      apply List.Pairwise.imp _ (List.pairwise_lt_range)
      intro first second hlt edge hedge other hother hsame
      have hstored := (edgeAt?_eq_some_iff.mp hedge).1
      have hstoredOther := (edgeAt?_eq_some_iff.mp hother).1
      exact Nat.ne_of_lt hlt (hcoherent.eq_of_equal hstored hstoredOther hsame)

variable [LawfulHashable V]

theorem Coherent.mem_vertices (hcoherent : graph.Coherent) (vertex : V) :
    graph.hasVertex vertex = true ↔
      ∃ stored ∈ graph.vertices.toList, (stored == vertex) = true := by
  rw [hasVertex_eq_isSome, Option.isSome_iff_exists]
  simp only [hcoherent.index_iff, Holds]
  constructor
  · intro hheld
    obtain ⟨index, stored, hstored, hsame⟩ := hheld
    exact ⟨stored, Array.mem_toList_iff.mpr (Array.mem_of_getElem? hstored), hsame⟩
  · intro hlisted
    obtain ⟨stored, hstored, hsame⟩ := hlisted
    obtain ⟨index, hindex⟩ := Array.mem_iff_getElem?.mp (Array.mem_toList_iff.mp hstored)
    exact ⟨index, stored, hindex, hsame⟩

/-- The answers of a coherent matrix graph fit together. -/
theorem Coherent.consistent [ByteSize E] [Literal V] (hcoherent : graph.Coherent) :
    DirectedGraph.Consistent graph where
  hasEdge_eq := hcoherent.hasEdge_eq_isSome
  vertexCount_eq := Array.length_toList.symm
  degree_eq := hcoherent.degree_eq_length
  degree_congr := by
    intro first second hsame
    change graph.degree first = graph.degree second
    rw [degree, degree, indexOf?, indexOf?, Std.HashMap.getElem?_congr hsame]
  edgeCount_eq := hcoherent.sum_degree.symm
  distinct_vertices := hcoherent.distinct_vertices
  mem_vertices := hcoherent.mem_vertices
  distinct_edges := hcoherent.distinct_edges
  mem_edges := hcoherent.mem_edges

end Listing

/-! ## Runs of two graphs -/

section Runs

variable [EquivBEq V] [LawfulHashable V] [Inhabited E] [ByteSize E]

/-- A matrix graph and a list graph that stand for the same graph with costs. -/
def StandsLike (dense : MatrixGraph V E) (sparse : ListGraph V E) : Prop :=
  ∃ model : CostGraph (EqClass V) E,
    (dense.Coherent ∧ dense.Depicts model) ∧ sparse.Coherent ∧ sparse.Depicts model

omit [ByteSize E] in
theorem standsLike_empty {capacity : UInt64} (hcapacity : 0 < capacity) :
    StandsLike (ofTable (.blank capacity) : MatrixGraph V E) .empty :=
  ⟨.empty, ⟨coherent_ofTable (UInt64.lt_iff_toNat_lt.mp hcapacity), depicts_empty⟩,
    ListGraph.coherent_empty, ListGraph.depicts_empty⟩

variable [Literal V] {dense : MatrixGraph V E} {sparse : ListGraph V E}

theorem StandsLike.perform (halike : StandsLike dense sparse) {call : GraphCall V E}
    (hgranted : dense.Granted call) :
    DirectedGraph.AnswersMatch (DirectedGraph.perform dense call).1
        (DirectedGraph.perform sparse call).1 ∧
      StandsLike (DirectedGraph.perform dense call).2 (DirectedGraph.perform sparse call).2 := by
  obtain ⟨model, ⟨hdense, hmodel⟩, hsparse, hother⟩ := halike
  obtain ⟨hanswer, hmodelNext⟩ := hmodel.perform hdense hgranted
  obtain ⟨hmatch, hotherNext⟩ := hother.perform hsparse call
  rw [hanswer]
  exact ⟨hmatch, _, ⟨hdense.perform call, hmodelNext⟩, hsparse.perform call, hotherNext⟩

theorem StandsLike.interchangeable (halike : StandsLike dense sparse) :
    DirectedGraph.Consistent dense ∧ DirectedGraph.Consistent sparse ∧
      DirectedGraph.Interchangeable dense sparse := by
  obtain ⟨model, ⟨hdense, hmodel⟩, hsparse, hother⟩ := halike
  refine ⟨hdense.consistent, hsparse.consistent,
    hdense.consistent.interchangeable hsparse.consistent ?_ ?_⟩
  · intro vertex
    exact (hmodel.vertices vertex).trans (hother.vertices vertex).symm
  · intro source target
    exact (hmodel.costs source target).trans (hother.costs source target).symm

/-- A new matrix graph and a new list graph that are given the same calls give matching
answers, and after each run they can stand for each other. -/
theorem withCapacity_run_interchangeable {memory : Memory} {capacity : UInt64}
    (hcapacity : 0 < capacity) (hreserve : EdgeTable.reserve E memory capacity = .ok ()) :
    ∃ dense : MatrixGraph V E, withCapacity memory capacity = .ok dense ∧
      ∀ start : MatrixGraph V E, start = dense ∨ start = empty →
        ∀ calls : List (GraphCall V E),
          Calls.Throughout DirectedGraph.perform Granted start calls →
            List.Forall₂ DirectedGraph.AnswersMatch
                (Calls.run DirectedGraph.perform start calls).1
                (Calls.run DirectedGraph.perform (.empty : ListGraph V E) calls).1 ∧
              DirectedGraph.Consistent (Calls.run DirectedGraph.perform start calls).2 ∧
              DirectedGraph.Consistent
                (Calls.run DirectedGraph.perform (.empty : ListGraph V E) calls).2 ∧
              DirectedGraph.Interchangeable (Calls.run DirectedGraph.perform start calls).2
                (Calls.run DirectedGraph.perform (.empty : ListGraph V E) calls).2 := by
  refine ⟨_, withCapacity_of_reserve hcapacity hreserve, ?_⟩
  intro start hstart calls hgranted
  have halike : StandsLike start (.empty : ListGraph V E) := by
    rcases hstart with hnew | hstandard
    · rw [hnew]
      exact standsLike_empty hcapacity
    · rw [hstandard]
      exact standsLike_empty (by decide)
  have hstep : ∀ (dense : MatrixGraph V E) (sparse : ListGraph V E) (call : GraphCall V E),
      dense.Granted call → StandsLike dense sparse →
        DirectedGraph.AnswersMatch (DirectedGraph.perform dense call).1
            (DirectedGraph.perform sparse call).1 ∧
          StandsLike (DirectedGraph.perform dense call).2
            (DirectedGraph.perform sparse call).2 :=
    fun dense sparse call hcall hrelated => hrelated.perform hcall
  obtain ⟨hanswers, hfinal⟩ := Calls.run_related hstep calls _ _ halike hgranted
  exact ⟨hanswers, hfinal.interchangeable⟩

/-- Calls in which the table grows, a vertex is refused, a cost is overwritten, an end is missing,
and a vertex with an edge to itself is removed and added again. -/
def readdingCalls : List (GraphCall Nat Int64) :=
  [.addVertex .unlimited 1, .addVertex .unlimited 2, .addVertex .unlimited 2, .addEdge 2 2 5,
    .addEdge 1 2 6, .addEdge 2 1 7, .addEdge 1 2 8, .addEdge 3 1 9, .removeEdge 2 1,
    .removeVertex 2, .addVertex .unlimited 2, .addEdge 2 1 4]

theorem withCapacity_run_interchangeable_readdingCalls :
    0 < (1 : UInt64) ∧ EdgeTable.reserve Int64 .unlimited 1 = .ok () ∧
      ∃ start : MatrixGraph Nat Int64, withCapacity .unlimited 1 = .ok start ∧
        Calls.Throughout DirectedGraph.perform Granted start readdingCalls ∧
        (Calls.run DirectedGraph.perform start readdingCalls).2.edgeCost? 2 1 = some 4 ∧
        (Calls.run DirectedGraph.perform start readdingCalls).2.edgeCount = 1 ∧
        List.Forall₂ DirectedGraph.AnswersMatch
          (Calls.run DirectedGraph.perform start readdingCalls).1
          (Calls.run DirectedGraph.perform (.empty : ListGraph Nat Int64) readdingCalls).1 ∧
        DirectedGraph.Interchangeable
          (Calls.run DirectedGraph.perform start readdingCalls).2
          (Calls.run DirectedGraph.perform (.empty : ListGraph Nat Int64) readdingCalls).2 := by
  have hcapacity : 0 < (1 : UInt64) := by decide
  have hreserve : EdgeTable.reserve Int64 .unlimited 1 = .ok () := by rfl
  obtain ⟨start, hstart, hruns⟩ :=
    @withCapacity_run_interchangeable Nat Int64 _ _ _ _ _ _ _ .unlimited 1 hcapacity hreserve
  obtain rfl : ofTable (.blank 1) = start :=
    Except.ok.inj ((withCapacity_of_reserve hcapacity hreserve).symm.trans hstart)
  have hgranted : Calls.Throughout DirectedGraph.perform Granted
      (ofTable (.blank 1) : MatrixGraph Nat Int64) readdingCalls :=
    ⟨fun _ _ => ⟨2, by cbv, by rfl⟩, fun _ _ => ⟨2, by cbv, by rfl⟩,
      fun _ _ => ⟨4, by cbv, by rfl⟩, trivial, trivial, trivial, trivial, trivial, trivial,
      trivial, fun _ _ => ⟨4, by cbv, by rfl⟩, trivial, trivial⟩
  obtain ⟨hanswers, -, -, hsame⟩ := hruns _ (Or.inl rfl) readdingCalls hgranted
  exact ⟨hcapacity, hreserve, _, hstart, hgranted, by cbv, by cbv, hanswers, hsame⟩

end Runs

end MatrixGraph

end Collections
