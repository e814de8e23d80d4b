import Mathlib
import Collections.Graph.Matrix
import Collections.Proofs.Graph.EdgeTable

/-!
# Coherence of matrix graphs

The index of the vertices, the list of the vertices, the edge table and the edge
counter of a matrix graph describe one graph.  Every operation keeps them coherent;
its lemmas also say which vertices and which edges the graph has afterwards.
-/

namespace Collections

universe u v

namespace MatrixGraph

variable {V : Type u} {E : Type v} [BEq V] [Hashable V]

/-- The vertex with an index is equal to a given one. -/
def Holds (graph : MatrixGraph V E) (index : Nat) (vertex : V) : Prop :=
  ∃ stored, graph.vertices[index]? = some stored ∧ stored == vertex

theorem Holds.lt_vertexCount {graph : MatrixGraph V E} {index : Nat} {vertex : V}
    (hholds : graph.Holds index vertex) : index < graph.vertexCount := by
  obtain ⟨stored, hstored, -⟩ := hholds
  exact (Array.getElem?_eq_some_iff.mp hstored).1

theorem holds_self [EquivBEq V] {graph : MatrixGraph V E} {index : Nat} {stored : V}
    (hstored : graph.vertices[index]? = some stored) : graph.Holds index stored :=
  ⟨stored, hstored, BEq.rfl⟩

theorem holds_append (graph : MatrixGraph V E) (added vertex : V) (index : Nat) :
    (graph.append added).Holds index vertex ↔
      if index = graph.vertexCount then (added == vertex) = true
      else graph.Holds index vertex := by
  simp only [Holds, append, Array.getElem?_push, vertexCount]
  by_cases hindex : index = graph.vertices.size
  · simp [hindex]
  · simp [hindex]

theorem indexOf?_append [EquivBEq V] [LawfulHashable V] (graph : MatrixGraph V E)
    (added vertex : V) :
    (graph.append added).indexOf? vertex =
      if added == vertex then some graph.vertexCount else graph.indexOf? vertex :=
  Std.HashMap.getElem?_insert

/-- The parts of a matrix graph fit together. -/
structure Coherent [Inhabited E] (graph : MatrixGraph V E) : Prop where
  table : graph.table.WellFormed
  side_pos : 0 < graph.table.side
  vertexCount_le : graph.vertexCount ≤ graph.table.side
  /-- The index leads from a vertex to the place where an equal one stands. -/
  index_iff : ∀ vertex index, graph.indexOf? vertex = some index ↔ graph.Holds index vertex
  size_index : graph.index.size = graph.vertexCount
  /-- Indices without a vertex have no edges. -/
  unused : ∀ index, graph.vertexCount ≤ index → index < graph.table.side →
    graph.table.Isolated index
  edgeCount_eq : graph.edgeCount = graph.table.edgeCells.card

variable [Inhabited E]

namespace Coherent

variable {graph : MatrixGraph V E}

theorem lt_vertexCount (hcoherent : graph.Coherent) {vertex : V} {index : Nat}
    (hindex : graph.indexOf? vertex = some index) : index < graph.vertexCount :=
  ((hcoherent.index_iff vertex index).mp hindex).lt_vertexCount

theorem lt_side (hcoherent : graph.Coherent) {vertex : V} {index : Nat}
    (hindex : graph.indexOf? vertex = some index) : index < graph.table.side :=
  Nat.lt_of_lt_of_le (hcoherent.lt_vertexCount hindex) hcoherent.vertexCount_le

/-- A vertex has the index of another one exactly when the two are equal. -/
theorem indexOf?_eq_iff [EquivBEq V] (hcoherent : graph.Coherent) {vertex other : V}
    {index : Nat} (hindex : graph.indexOf? vertex = some index) :
    graph.indexOf? other = some index ↔ (vertex == other) = true := by
  obtain ⟨stored, hstored, hsame⟩ := (hcoherent.index_iff vertex index).mp hindex
  rw [hcoherent.index_iff]
  constructor
  · rintro ⟨otherStored, hother, hotherSame⟩
    rw [hstored, Option.some.injEq] at hother
    exact BEq.trans (BEq.symm hsame) (hother ▸ hotherSame)
  · exact fun hequal => ⟨stored, hstored, BEq.trans hsame hequal⟩

/-- An edge joins two indices that have vertices. -/
theorem lt_of_edge (hcoherent : graph.Coherent) {row column : Nat}
    (hrow : row < graph.table.side) (hcolumn : column < graph.table.side)
    (hedge : (graph.table.edge? row column).isSome) :
    row < graph.vertexCount ∧ column < graph.vertexCount := by
  by_contra hunused
  have hnone : graph.table.edge? row column = none := by
    by_cases hrowUsed : row < graph.vertexCount
    · exact (hcoherent.unused column (by omega) hcolumn row hrow).2
    · exact (hcoherent.unused row (by omega) hrow column hcolumn).1
  simp [hnone] at hedge

end Coherent

/-! ## Graphs without vertices -/

theorem coherent_ofTable [EquivBEq V] [LawfulHashable V] {capacity : UInt64}
    (hcapacity : 0 < capacity.toNat) :
    (ofTable (.blank capacity) : MatrixGraph V E).Coherent where
  table := EdgeTable.wellFormed_blank capacity
  side_pos := hcapacity
  vertexCount_le := Nat.zero_le _
  index_iff := by
    intro vertex index
    simp [ofTable, indexOf?, Holds]
  size_index := Std.HashMap.size_empty
  unused := by
    intro index _ _ other _
    simp [ofTable]
  edgeCount_eq := by simp [ofTable]

theorem Coherent.clear [EquivBEq V] [LawfulHashable V] {graph : MatrixGraph V E}
    (hcoherent : graph.Coherent) : graph.clear.Coherent :=
  coherent_ofTable hcoherent.side_pos

/-! ## New vertices -/

section Append

variable [EquivBEq V] [LawfulHashable V] {graph : MatrixGraph V E}

theorem Coherent.append (hcoherent : graph.Coherent) {added : V}
    (hnew : graph.hasVertex added = false)
    (hroom : graph.vertexCount < graph.table.side) : (graph.append added).Coherent where
  table := hcoherent.table
  side_pos := hcoherent.side_pos
  vertexCount_le := by
    simpa [MatrixGraph.append, vertexCount] using hroom
  index_iff := by
    intro vertex index
    rw [indexOf?_append, holds_append]
    have hfresh : ∀ index, (added == vertex) = true → ¬ graph.Holds index vertex := by
      intro index hequal hholds
      have hfound := (hcoherent.index_iff vertex index).mpr hholds
      rw [indexOf?, ← Std.HashMap.getElem?_congr hequal] at hfound
      simp [hasVertex, Std.HashMap.contains_eq_isSome_getElem?, hfound] at hnew
    have hbound : graph.Holds index vertex → index < graph.vertexCount :=
      Holds.lt_vertexCount
    have hold := hcoherent.index_iff vertex index
    by_cases hequal : (added == vertex) = true
    · have hnone := hfresh index hequal
      by_cases hindex : index = graph.vertexCount
      · simp [hequal, hindex]
      · simp [hequal, hindex, hnone, Ne.symm hindex]
    · by_cases hindex : index = graph.vertexCount
      · rw [if_neg hequal, if_pos hindex, hold]
        constructor
        · intro hholds
          exact absurd (hbound hholds) (by omega)
        · exact fun hequal' => absurd hequal' hequal
      · rw [if_neg hequal, if_neg hindex, hold]
  size_index := by
    have habsent : added ∉ graph.index := by
      rw [← Std.HashMap.contains_iff_mem]
      simpa [hasVertex] using hnew
    simp [MatrixGraph.append, vertexCount, Std.HashMap.size_insert, habsent,
      hcoherent.size_index]
  unused := by
    intro index hindex hinside
    simp only [MatrixGraph.append, vertexCount, Array.size_push] at hindex hinside ⊢
    exact hcoherent.unused index (Nat.le_of_succ_le hindex) hinside
  edgeCount_eq := hcoherent.edgeCount_eq

end Append

/-- A doubled side has room for one more vertex. -/
theorem Coherent.lt_of_twice {graph : MatrixGraph V E} (hcoherent : graph.Coherent)
    {larger : UInt64} (htwice : EdgeTable.twice graph.capacity = .ok larger) :
    larger.toNat = graph.table.side * 2 ∧ graph.vertexCount < larger.toNat := by
  have hlarger : larger.toNat = graph.table.side * 2 := EdgeTable.twice_eq_ok_iff.mp htwice
  have hside := hcoherent.side_pos
  have hcount := hcoherent.vertexCount_le
  exact ⟨hlarger, by omega⟩

/-- A larger table leaves room for another vertex and keeps all edges. -/
theorem Coherent.enlarge {graph : MatrixGraph V E} (hcoherent : graph.Coherent)
    {larger : UInt64} (hlarger : larger.toNat = graph.table.side * 2) :
    ({ graph with table := graph.table.enlarge larger graph.vertexCount } :
      MatrixGraph V E).Coherent where
  table := hcoherent.table.enlarge larger graph.vertexCount
  side_pos := by
    have hside := hcoherent.side_pos
    change 0 < larger.toNat
    omega
  vertexCount_le := by
    have hcount := hcoherent.vertexCount_le
    change graph.vertexCount ≤ larger.toNat
    omega
  index_iff := hcoherent.index_iff
  size_index := hcoherent.size_index
  unused := by
    intro index hindex hinside other hother
    have hcount := hcoherent.vertexCount_le
    have hroom : graph.vertexCount ≤ larger.toNat := by omega
    change graph.vertexCount ≤ index at hindex
    rw [EdgeTable.edge?_enlarge hcoherent.table hcount hroom index hother,
      EdgeTable.edge?_enlarge hcoherent.table hcount hroom other hinside,
      if_neg (by omega), if_neg (by omega)]
    exact ⟨rfl, rfl⟩
  edgeCount_eq := by
    have hcount := hcoherent.vertexCount_le
    rw [EdgeTable.edgeCells_enlarge hcoherent.table hcount (by omega) hcoherent.unused]
    exact hcoherent.edgeCount_eq

/-! ## Single edges -/

section Edges

variable {graph : MatrixGraph V E}

/-- Puts an edge into a cell and counts it if it is new. -/
def putEdge (graph : MatrixGraph V E) (row column : Nat) (cost : E) : MatrixGraph V E :=
  { graph with
    table := graph.table.put row column cost
    edgeCount := graph.edgeCount + if graph.table.present row column then 0 else 1 }

theorem Coherent.putEdge (hcoherent : graph.Coherent) {row column : Nat}
    (hrow : row < graph.vertexCount) (hcolumn : column < graph.vertexCount) (cost : E) :
    (graph.putEdge row column cost).Coherent := by
  have hcount := hcoherent.vertexCount_le
  have hrowInside : row < graph.table.side := by omega
  have hcolumnInside : column < graph.table.side := by omega
  exact {
    table := hcoherent.table.write row column (some cost)
    side_pos := hcoherent.side_pos
    vertexCount_le := hcount
    index_iff := hcoherent.index_iff
    size_index := hcoherent.size_index
    unused := by
      intro index hindex hinside other hother
      change graph.vertexCount ≤ index at hindex
      change index < graph.table.side at hinside
      change other < graph.table.side at hother
      have hold := hcoherent.unused index hindex hinside other hother
      simp only [MatrixGraph.putEdge, EdgeTable.put_eq_write]
      rw [EdgeTable.edge?_write hcoherent.table hrowInside hcolumnInside _ _ hother,
        EdgeTable.edge?_write hcoherent.table hrowInside hcolumnInside _ _ hinside,
        if_neg (by omega), if_neg (by omega)]
      exact hold
    edgeCount_eq := by
      have hmem : (row, column) ∈ graph.table.edgeCells ↔
          graph.table.present row column = true := by
        rw [EdgeTable.mem_edgeCells, EdgeTable.present_eq_isSome hcoherent.table]
        exact and_iff_right ⟨hrowInside, hcolumnInside⟩
      simp only [MatrixGraph.putEdge]
      rw [EdgeTable.edgeCells_put hcoherent.table hrowInside hcolumnInside,
        Finset.card_insert_eq_ite, hcoherent.edgeCount_eq]
      by_cases hpresent : graph.table.present row column = true
      · rw [if_pos hpresent, if_pos (hmem.mpr hpresent), Nat.add_zero]
      · rw [if_neg hpresent, if_neg (fun h => hpresent (hmem.mp h))] }

theorem dropEdge_of_present {row column : Nat}
    (hpresent : graph.table.present row column = true) :
    graph.dropEdge row column =
      { graph with table := graph.table.erase row column, edgeCount := graph.edgeCount - 1 } :=
  if_pos hpresent

theorem dropEdge_of_absent {row column : Nat}
    (habsent : graph.table.present row column = false) :
    graph.dropEdge row column = graph := by
  simp [dropEdge, habsent]

@[simp]
theorem vertices_dropEdge (graph : MatrixGraph V E) (row column : Nat) :
    (graph.dropEdge row column).vertices = graph.vertices := by
  unfold dropEdge
  split <;> rfl

@[simp]
theorem index_dropEdge (graph : MatrixGraph V E) (row column : Nat) :
    (graph.dropEdge row column).index = graph.index := by
  unfold dropEdge
  split <;> rfl

@[simp]
theorem capacity_dropEdge (graph : MatrixGraph V E) (row column : Nat) :
    (graph.dropEdge row column).table.capacity = graph.table.capacity := by
  unfold dropEdge
  split <;> rfl

theorem edge?_dropEdge (hcoherent : graph.Coherent) {row column : Nat}
    (hrow : row < graph.table.side) (hcolumn : column < graph.table.side)
    (otherRow : Nat) {otherColumn : Nat} (hother : otherColumn < graph.table.side) :
    (graph.dropEdge row column).table.edge? otherRow otherColumn =
      if otherRow = row ∧ otherColumn = column then none
      else graph.table.edge? otherRow otherColumn := by
  cases hpresent : graph.table.present row column with
  | true =>
      rw [dropEdge_of_present hpresent]
      exact EdgeTable.edge?_write hcoherent.table hrow hcolumn none otherRow hother
  | false =>
      rw [dropEdge_of_absent hpresent]
      have hnone : graph.table.edge? row column = none := by
        rw [EdgeTable.present_eq_isSome hcoherent.table] at hpresent
        simpa using hpresent
      split
      next hhere => rw [hhere.1, hhere.2, hnone]
      next => rfl

theorem Coherent.dropEdge (hcoherent : graph.Coherent) {row column : Nat}
    (hrow : row < graph.table.side) (hcolumn : column < graph.table.side) :
    (graph.dropEdge row column).Coherent := by
  cases hpresent : graph.table.present row column with
  | false => rwa [dropEdge_of_absent hpresent]
  | true =>
      have hedge {otherRow otherColumn : Nat} (hother : otherColumn < graph.table.side) :=
        edge?_dropEdge hcoherent hrow hcolumn otherRow hother
      rw [dropEdge_of_present hpresent] at hedge ⊢
      exact {
        table := hcoherent.table.write row column none
        side_pos := hcoherent.side_pos
        vertexCount_le := hcoherent.vertexCount_le
        index_iff := hcoherent.index_iff
        size_index := hcoherent.size_index
        unused := by
          intro index hindex hinside other hother
          have hold := hcoherent.unused index hindex hinside other hother
          rw [hedge hother, hedge hinside, hold.1, hold.2]
          exact ⟨ite_self _, ite_self _⟩
        edgeCount_eq := by
          have hmem : (row, column) ∈ graph.table.edgeCells := by
            rw [EdgeTable.mem_edgeCells, ← EdgeTable.present_eq_isSome hcoherent.table]
            exact ⟨⟨hrow, hcolumn⟩, hpresent⟩
          change graph.edgeCount - 1 = _
          rw [EdgeTable.edgeCells_erase hcoherent.table hrow hcolumn,
            Finset.card_erase_of_mem hmem, hcoherent.edgeCount_eq] }

end Edges

end MatrixGraph

end Collections
