import Mathlib
import Collections.Proofs.Graph.MatrixRemoval

/-!
# Costs of a matrix graph

Where the vertices stand does not matter to a question about them.  The changes of a
matrix graph are described here by what they do to the answers.
-/

namespace Collections

universe u v

namespace MatrixGraph

variable {V : Type u} {E : Type v} [BEq V] [Hashable V]

theorem edgeCost?_eq_bind (graph : MatrixGraph V E) (source target : V) :
    graph.edgeCost? source target =
      (graph.indexOf? source).bind fun row =>
        (graph.indexOf? target).bind fun column => graph.table.edge? row column := by
  rw [edgeCost?]
  cases graph.indexOf? source with
  | none => rfl
  | some row =>
      cases graph.indexOf? target with
      | none => rfl
      | some column => rfl

section Lookup

variable [EquivBEq V] [LawfulHashable V]

theorem hasVertex_eq_isSome (graph : MatrixGraph V E) (vertex : V) :
    graph.hasVertex vertex = (graph.indexOf? vertex).isSome :=
  Std.HashMap.contains_eq_isSome_getElem?

theorem indexOf?_eq_none_iff (graph : MatrixGraph V E) (vertex : V) :
    graph.indexOf? vertex = none ↔ graph.hasVertex vertex = false := by
  rw [hasVertex_eq_isSome, Option.isSome_eq_false_iff, Option.isNone_iff_eq_none]

theorem exists_indexOf?_iff (graph : MatrixGraph V E) (vertex : V) :
    (∃ index, graph.indexOf? vertex = some index) ↔ graph.hasVertex vertex = true := by
  rw [hasVertex_eq_isSome, Option.isSome_iff_exists]

theorem hasVertex_append (graph : MatrixGraph V E) (added vertex : V) :
    (graph.append added).hasVertex vertex = (added == vertex || graph.hasVertex vertex) :=
  Std.HashMap.contains_insert

end Lookup

variable [Inhabited E] {graph : MatrixGraph V E}

theorem Coherent.hasEdge_eq_isSome (hcoherent : graph.Coherent) (source target : V) :
    graph.hasEdge source target = (graph.edgeCost? source target).isSome := by
  rw [hasEdge, edgeCost?]
  cases graph.indexOf? source with
  | none => rfl
  | some row =>
      cases graph.indexOf? target with
      | none => rfl
      | some column => exact EdgeTable.present_eq_isSome hcoherent.table row column

theorem Coherent.edgeCost?_enlarge (hcoherent : graph.Coherent) {larger : UInt64}
    (hlarger : graph.vertexCount ≤ larger.toNat) (source target : V) :
    ({ graph with table := graph.table.enlarge larger graph.vertexCount } :
        MatrixGraph V E).edgeCost? source target =
      graph.edgeCost? source target := by
  rw [edgeCost?_eq_bind, edgeCost?_eq_bind]
  apply Option.bind_congr
  intro row hrow
  apply Option.bind_congr
  intro column hcolumn
  have hrowUsed := hcoherent.lt_vertexCount hrow
  have hcolumnUsed := hcoherent.lt_vertexCount hcolumn
  rw [EdgeTable.edge?_enlarge hcoherent.table hcoherent.vertexCount_le hlarger row
    (Nat.lt_of_lt_of_le hcolumnUsed hlarger), if_pos ⟨hrowUsed, hcolumnUsed⟩]

variable [EquivBEq V]

/-- A change of one cell is a change of the cost between two vertices. -/
theorem Coherent.edgeCost?_of_cell (hcoherent : graph.Coherent) {after : MatrixGraph V E}
    {source target : V} {row column : Nat} (hrow : graph.indexOf? source = some row)
    (hcolumn : graph.indexOf? target = some column) (content : Option E)
    (hindex : after.index = graph.index)
    (hedge : ∀ otherRow otherColumn, otherColumn < graph.table.side →
      after.table.edge? otherRow otherColumn =
        if otherRow = row ∧ otherColumn = column then content
        else graph.table.edge? otherRow otherColumn)
    (first second : V) :
    after.edgeCost? first second =
      if (source == first) = true ∧ (target == second) = true then content
      else graph.edgeCost? first second := by
  have hindexOf : ∀ vertex, after.indexOf? vertex = graph.indexOf? vertex := by
    intro vertex
    rw [indexOf?, indexOf?, hindex]
  simp only [edgeCost?_eq_bind, hindexOf, ← hcoherent.indexOf?_eq_iff hrow,
    ← hcoherent.indexOf?_eq_iff hcolumn]
  cases hfirst : graph.indexOf? first with
  | none => simp
  | some firstIndex =>
      cases hsecond : graph.indexOf? second with
      | none => simp
      | some secondIndex =>
          simp only [Option.bind_some, Option.some.injEq]
          exact hedge firstIndex secondIndex (hcoherent.lt_side hsecond)

theorem Coherent.edgeCost?_putEdge (hcoherent : graph.Coherent) {source target : V}
    {row column : Nat} (hrow : graph.indexOf? source = some row)
    (hcolumn : graph.indexOf? target = some column) (cost : E) (first second : V) :
    (graph.putEdge row column cost).edgeCost? first second =
      if (source == first) = true ∧ (target == second) = true then some cost
      else graph.edgeCost? first second := by
  apply hcoherent.edgeCost?_of_cell hrow hcolumn (some cost)
  · rfl
  · intro otherRow otherColumn hother
    exact EdgeTable.edge?_write hcoherent.table (hcoherent.lt_side hrow)
      (hcoherent.lt_side hcolumn) (some cost) otherRow hother

theorem Coherent.edgeCost?_dropEdge (hcoherent : graph.Coherent) {source target : V}
    {row column : Nat} (hrow : graph.indexOf? source = some row)
    (hcolumn : graph.indexOf? target = some column) (first second : V) :
    (graph.dropEdge row column).edgeCost? first second =
      if (source == first) = true ∧ (target == second) = true then none
      else graph.edgeCost? first second := by
  apply hcoherent.edgeCost?_of_cell hrow hcolumn none
  · exact index_dropEdge graph row column
  · intro otherRow otherColumn hother
    exact edge?_dropEdge hcoherent (hcoherent.lt_side hrow) (hcoherent.lt_side hcolumn)
      otherRow hother

/-- A vertex that is appended has no edges yet. -/
theorem Coherent.edgeCost?_append [LawfulHashable V] (hcoherent : graph.Coherent)
    (hroom : graph.vertexCount < graph.table.side) (added source target : V) :
    (graph.append added).edgeCost? source target =
      if (added == source) = true ∨ (added == target) = true then none
      else graph.edgeCost? source target := by
  have hisolated := hcoherent.unused graph.vertexCount (Nat.le_refl _) hroom
  have hinside : ∀ vertex index, (graph.append added).indexOf? vertex = some index →
      index < graph.table.side := by
    intro vertex index hindex
    rw [indexOf?_append] at hindex
    split at hindex
    next => exact Option.some.inj hindex ▸ hroom
    next => exact hcoherent.lt_side hindex
  rw [edgeCost?_eq_bind]
  change ((graph.append added).indexOf? source).bind (fun row =>
    ((graph.append added).indexOf? target).bind fun column => graph.table.edge? row column) = _
  split
  next hnew =>
    cases hrow : (graph.append added).indexOf? source with
    | none => rfl
    | some row =>
        cases hcolumn : (graph.append added).indexOf? target with
        | none => rfl
        | some column =>
            rw [Option.bind_some, Option.bind_some]
            rcases hnew with hsource | htarget
            · rw [indexOf?_append, if_pos hsource, Option.some.injEq] at hrow
              rw [← hrow]
              exact (hisolated column (hinside target column hcolumn)).1
            · rw [indexOf?_append, if_pos htarget, Option.some.injEq] at hcolumn
              rw [← hcolumn]
              exact (hisolated row (hinside source row hrow)).2
  next hold =>
    rw [not_or] at hold
    rw [indexOf?_append, indexOf?_append, if_neg hold.1, if_neg hold.2, edgeCost?_eq_bind]

/-- The vertex that settles elsewhere keeps its edges, and the removed one loses its own. -/
theorem TakenOver.edgeCost?_eq {after : MatrixGraph V E} {removed : V} {freed last : Nat}
    (htaken : TakenOver graph after removed freed last) (hcoherent : graph.Coherent)
    (hremoved : graph.indexOf? removed = some freed)
    (hlast : last = graph.vertexCount - 1) (source target : V) :
    after.edgeCost? source target =
      if (removed == source) = true ∨ (removed == target) = true then none
      else graph.edgeCost? source target := by
  have hfreed := hcoherent.lt_vertexCount hremoved
  have hcount := hcoherent.vertexCount_le
  rw [edgeCost?_eq_bind, htaken.indexOf?_eq, htaken.indexOf?_eq]
  by_cases hgone : (removed == source) = true ∨ (removed == target) = true
  · rw [if_pos hgone]
    rcases hgone with hsource | htarget
    · rw [if_pos hsource, Option.bind_none]
    · simp [htarget]
  · rw [if_neg hgone]
    rw [not_or] at hgone
    rw [if_neg hgone.1, if_neg hgone.2, edgeCost?_eq_bind]
    cases hrow : graph.indexOf? source with
    | none => rfl
    | some row =>
        cases hcolumn : graph.indexOf? target with
        | none => rfl
        | some column =>
            obtain ⟨hrowPlace, hrowBack⟩ :=
              hcoherent.settled_indexOf? hremoved hlast hgone.1 hrow
            obtain ⟨hcolumnPlace, hcolumnBack⟩ :=
              hcoherent.settled_indexOf? hremoved hlast hgone.2 hcolumn
            simp only [Option.map_some, Option.bind_some]
            rw [htaken.edges _ _ (by omega) (by omega), if_pos ⟨hrowPlace, hcolumnPlace⟩,
              hrowBack, hcolumnBack]

end MatrixGraph

end Collections
