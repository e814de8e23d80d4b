import Mathlib
import Collections.Proofs.Graph.CostGraph
import Collections.Proofs.Graph.MatrixRemoval

/-!
# Calls of a matrix graph

What each call does to a coherent graph, and what holds in every state that calls can
lead to, whatever requests for memory are refused on the way.
-/

namespace Collections

universe u v

namespace MatrixGraph

variable {V : Type u} {E : Type v} [BEq V] [Hashable V]

/-! ## What a call does -/

section Calls

variable {graph : MatrixGraph V E}

theorem addEdge_of_some [Literal V] {source target : V} {row column : Nat}
    (hsource : graph.indexOf? source = some row)
    (htarget : graph.indexOf? target = some column) (cost : E) :
    graph.addEdge source target cost = (.ok (), graph.putEdge row column cost) := by
  rw [addEdge, hsource, htarget]
  rfl

theorem addEdge_of_source_none [Literal V] {source : V}
    (hsource : graph.indexOf? source = none) (target : V) (cost : E) :
    graph.addEdge source target cost = (.error (.missing .source source), graph) := by
  rw [addEdge, hsource]

theorem addEdge_of_target_none [Literal V] {source target : V} {row : Nat}
    (hsource : graph.indexOf? source = some row)
    (htarget : graph.indexOf? target = none) (cost : E) :
    graph.addEdge source target cost = (.error (.missing .target target), graph) := by
  rw [addEdge, hsource, htarget]

variable [Inhabited E]

/-- The four outcomes of adding a vertex: it is there already, it finds room, the table
grows first, or the table cannot grow. -/
theorem addVertex_cases [ByteSize E] (memory : Memory) (graph : MatrixGraph V E)
    (vertex : V) :
    (graph.hasVertex vertex = true ∧
      graph.addVertex memory vertex = .quiet graph (.ok false)) ∨
    (graph.hasVertex vertex = false ∧ graph.vertexCount ≠ graph.table.side ∧
      graph.addVertex memory vertex = .quiet (graph.append vertex) (.ok true)) ∨
    (graph.hasVertex vertex = false ∧ graph.vertexCount = graph.table.side ∧
      ∃ larger, EdgeTable.twice graph.capacity = .ok larger ∧
        EdgeTable.reserve E memory larger = .ok () ∧
        graph.addVertex memory vertex =
          ⟨({ graph with table := graph.table.enlarge larger graph.vertexCount } :
              MatrixGraph V E).append vertex, .ok true,
            [.matrixGrown graph.capacity larger]⟩) ∨
    (graph.hasVertex vertex = false ∧ graph.vertexCount = graph.table.side ∧
      ¬ graph.table.CanGrow memory ∧
      ∃ fault, graph.addVertex memory vertex = .quiet graph (.error fault)) := by
  by_cases hpresent : graph.hasVertex vertex = true
  · left
    exact ⟨hpresent, if_pos hpresent⟩
  right
  have habsent : graph.hasVertex vertex = false := by simpa using hpresent
  by_cases hfull : graph.vertexCount = graph.table.side
  · right
    rw [addVertex, if_neg hpresent]
    rw [if_pos (show graph.vertexCount = graph.capacity.toNat from hfull)]
    rcases graph.table.grow_cases memory graph.vertexCount with
      ⟨larger, htwice, hreserve, hgrow⟩ | ⟨hnoRoom, fault, hgrow⟩
    · left
      rw [hgrow]
      exact ⟨habsent, hfull, larger, htwice, hreserve, rfl⟩
    · right
      rw [hgrow]
      exact ⟨habsent, hfull, hnoRoom, fault, rfl⟩
  · left
    refine ⟨habsent, hfull, ?_⟩
    rw [addVertex, if_neg hpresent]
    exact if_neg hfull

theorem removeEdge_of_some {source target : V} {row column : Nat}
    (hsource : graph.indexOf? source = some row)
    (htarget : graph.indexOf? target = some column) :
    graph.removeEdge source target =
      (graph.table.present row column, graph.dropEdge row column) := by
  rw [removeEdge, hsource, htarget]

theorem removeEdge_of_none {source target : V}
    (hmissing : graph.indexOf? source = none ∨ graph.indexOf? target = none) :
    graph.removeEdge source target = (false, graph) := by
  rw [removeEdge]
  cases hsource : graph.indexOf? source with
  | none => rfl
  | some row =>
      cases htarget : graph.indexOf? target with
      | none => rfl
      | some column => simp [hsource, htarget] at hmissing

variable [EquivBEq V] [LawfulHashable V] [ByteSize E]

theorem Coherent.addVertex (hcoherent : graph.Coherent) (memory : Memory) (vertex : V) :
    (graph.addVertex memory vertex).state.Coherent := by
  rcases addVertex_cases memory graph vertex with
    ⟨-, hstep⟩ | ⟨habsent, hroom, hstep⟩ |
      ⟨habsent, hfull, larger, htwice, -, hstep⟩ | ⟨-, -, -, fault, hstep⟩ <;> rw [hstep]
  · exact hcoherent
  · apply hcoherent.append habsent
    exact Nat.lt_of_le_of_ne hcoherent.vertexCount_le hroom
  · obtain ⟨hlarger, hroom⟩ := hcoherent.lt_of_twice htwice
    exact (hcoherent.enlarge hlarger).append habsent hroom
  · exact hcoherent

/-- Every call keeps the parts of the graph fitting together. -/
theorem Coherent.perform [Literal V] (hcoherent : graph.Coherent) (call : GraphCall V E) :
    (DirectedGraph.perform graph call).2.Coherent := by
  cases call with
  | addVertex memory vertex => exact hcoherent.addVertex memory vertex
  | addEdge source target cost =>
      change (graph.addEdge source target cost).2.Coherent
      cases hsource : graph.indexOf? source with
      | none => rwa [addEdge_of_source_none hsource]
      | some row =>
          cases htarget : graph.indexOf? target with
          | none => rwa [addEdge_of_target_none hsource htarget]
          | some column =>
              rw [addEdge_of_some hsource htarget]
              exact hcoherent.putEdge (hcoherent.lt_vertexCount hsource)
                (hcoherent.lt_vertexCount htarget) cost
  | removeEdge source target =>
      change (graph.removeEdge source target).2.Coherent
      cases hsource : graph.indexOf? source with
      | none => rwa [removeEdge_of_none (Or.inl hsource)]
      | some row =>
          cases htarget : graph.indexOf? target with
          | none => rwa [removeEdge_of_none (Or.inr htarget)]
          | some column =>
              rw [removeEdge_of_some hsource htarget]
              exact hcoherent.dropEdge (hcoherent.lt_side hsource) (hcoherent.lt_side htarget)
  | removeVertex vertex =>
      change (graph.removeVertex vertex).2.Coherent
      cases hremoved : graph.indexOf? vertex with
      | none => rwa [removeVertex_of_none hremoved]
      | some freed =>
          exact (takenOver_removeVertex hcoherent hremoved).coherent hcoherent hremoved rfl
  | clear => exact hcoherent.clear

end Calls

end MatrixGraph

end Collections
