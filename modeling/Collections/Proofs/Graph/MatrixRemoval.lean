import Mathlib
import Collections.Proofs.Graph.MatrixCoherence

/-!
# Removing vertices of a matrix graph

A vertex is removed in two steps.  First its index is isolated, then the vertex with
the last index takes it over, together with its edges.
-/

namespace Collections

universe u v

namespace MatrixGraph

variable {V : Type u} {E : Type v} [BEq V] [Hashable V] [Inhabited E]

/-! ## Isolating an index -/

section Isolate

/-- Takes the edges out of several cells. -/
def dropEdges (graph : MatrixGraph V E) (places : List (Nat × Nat)) : MatrixGraph V E :=
  places.foldl (fun current place => current.dropEdge place.1 place.2) graph

/-- The cells of the row and of the column of an index, among the indices in use. -/
def crossing (count index : Nat) : List (Nat × Nat) :=
  (List.range count).map (fun column => (index, column)) ++
    (List.range count).map (fun row => (row, index))

theorem mem_crossing {count index row column : Nat} :
    (row, column) ∈ crossing count index ↔
      (row = index ∧ column < count) ∨ (column = index ∧ row < count) := by
  simp only [crossing, List.mem_append, List.mem_map, List.mem_range, Prod.mk.injEq]
  constructor
  · rintro (⟨other, hother, hrow, hcolumn⟩ | ⟨other, hother, hrow, hcolumn⟩)
    · exact Or.inl ⟨hrow.symm, hcolumn ▸ hother⟩
    · exact Or.inr ⟨hcolumn.symm, hrow ▸ hother⟩
  · rintro (⟨hrow, hcolumn⟩ | ⟨hcolumn, hrow⟩)
    · exact Or.inl ⟨column, hcolumn, hrow.symm, rfl⟩
    · exact Or.inr ⟨row, hrow, rfl, hcolumn.symm⟩

theorem isolate_eq_dropEdges (graph : MatrixGraph V E) (index : Nat) :
    graph.isolate index = graph.dropEdges (crossing graph.vertexCount index) := by
  simp only [isolate, dropEdges, crossing, List.foldl_append, List.foldl_map]

theorem dropEdges_frame (places : List (Nat × Nat)) :
    ∀ graph : MatrixGraph V E,
      (graph.dropEdges places).vertices = graph.vertices ∧
        (graph.dropEdges places).index = graph.index ∧
          (graph.dropEdges places).table.capacity = graph.table.capacity := by
  induction places with
  | nil => exact fun graph => ⟨rfl, rfl, rfl⟩
  | cons place places ih =>
      intro graph
      obtain ⟨hvertices, hindex, hcapacity⟩ := ih (graph.dropEdge place.1 place.2)
      rw [vertices_dropEdge] at hvertices
      rw [index_dropEdge] at hindex
      rw [capacity_dropEdge] at hcapacity
      exact ⟨hvertices, hindex, hcapacity⟩

theorem Coherent.dropEdges (places : List (Nat × Nat)) :
    ∀ graph : MatrixGraph V E, graph.Coherent →
      (∀ place ∈ places, place.1 < graph.table.side ∧ place.2 < graph.table.side) →
      (graph.dropEdges places).Coherent ∧
        ∀ row column, column < graph.table.side →
          (graph.dropEdges places).table.edge? row column =
            if (row, column) ∈ places then none else graph.table.edge? row column := by
  induction places with
  | nil =>
      intro graph hcoherent _
      exact ⟨hcoherent, fun row column _ => by simp [MatrixGraph.dropEdges]⟩
  | cons place places ih =>
      intro graph hcoherent hplaces
      obtain ⟨hrow, hcolumn⟩ := hplaces place List.mem_cons_self
      have hside : (graph.dropEdge place.1 place.2).table.side = graph.table.side :=
        congrArg UInt64.toNat (capacity_dropEdge graph place.1 place.2)
      obtain ⟨hnext, hedges⟩ := ih (graph.dropEdge place.1 place.2)
        (hcoherent.dropEdge hrow hcolumn)
        (fun other hother => hside ▸ hplaces other (List.mem_cons_of_mem place hother))
      refine ⟨hnext, ?_⟩
      intro row column hinside
      have hrest := hedges row column (hside ▸ hinside)
      rw [edge?_dropEdge hcoherent hrow hcolumn row hinside] at hrest
      rw [MatrixGraph.dropEdges, List.foldl_cons]
      refine hrest.trans ?_
      simp only [List.mem_cons, Prod.ext_iff]
      grind

variable {graph : MatrixGraph V E}

/-- What isolating an index leaves: the same vertices, and the edges elsewhere. -/
theorem Coherent.isolate (hcoherent : graph.Coherent) {index : Nat}
    (hindex : index < graph.vertexCount) :
    (graph.isolate index).Coherent ∧ (graph.isolate index).table.Isolated index ∧
      ∀ row column, row < graph.table.side → column < graph.table.side →
        (graph.isolate index).table.edge? row column =
          if row = index ∨ column = index then none else graph.table.edge? row column := by
  have hcount := hcoherent.vertexCount_le
  have hframe := dropEdges_frame (crossing graph.vertexCount index) graph
  obtain ⟨hisolated, hedges⟩ := Coherent.dropEdges (crossing graph.vertexCount index) graph
    hcoherent (by
      rintro ⟨row, column⟩ hmem
      have hplace := mem_crossing.mp hmem
      constructor <;> (dsimp only; omega))
  rw [← isolate_eq_dropEdges] at hframe hisolated hedges
  have hside : (graph.isolate index).table.side = graph.table.side :=
    congrArg UInt64.toNat hframe.2.2
  have hcross : ∀ row column, row < graph.table.side → column < graph.table.side →
      (graph.isolate index).table.edge? row column =
        if row = index ∨ column = index then none else graph.table.edge? row column := by
    intro row column hrow hcolumn
    simp only [hedges row column hcolumn, mem_crossing]
    -- beyond the indices in use the row and the column were empty before
    have hrowUnused := fun hunused => hcoherent.unused row hunused hrow column hcolumn
    have hcolumnUnused := fun hunused => hcoherent.unused column hunused hcolumn row hrow
    by_cases hrowUsed : row < graph.vertexCount
    · by_cases hcolumnUsed : column < graph.vertexCount
      · simp only [hrowUsed, hcolumnUsed, and_true]
      · simp [(hcolumnUnused (Nat.le_of_not_lt hcolumnUsed)).2]
    · simp [(hrowUnused (Nat.le_of_not_lt hrowUsed)).1]
  refine ⟨hisolated, ?_, hcross⟩
  intro other hother
  rw [hside] at hother
  rw [hcross index other (by omega) hother, hcross other index hother (by omega)]
  simp

end Isolate

/-! ## Removed vertices -/

section Remove

variable {graph : MatrixGraph V E}

theorem removeVertex_of_some {removed : V} {freed : Nat}
    (hremoved : graph.indexOf? removed = some freed) :
    graph.removeVertex removed =
      (true, ({ graph.isolate freed with index := (graph.isolate freed).index.erase removed } :
        MatrixGraph V E).takeOver freed) := by
  rw [removeVertex, hremoved]

theorem removeVertex_of_none {removed : V} (hremoved : graph.indexOf? removed = none) :
    graph.removeVertex removed = (false, graph) := by
  rw [removeVertex, hremoved]

variable [EquivBEq V] [LawfulHashable V]

/-- The index that a vertex has after the last one has taken the place of a freed one. -/
def settled (last freed index : Nat) : Nat :=
  if index = last then freed else index

theorem settled_self (last : Nat) : settled last last = id := by
  funext index
  rw [settled]
  split
  next heq => exact heq.symm
  next => rfl

theorem settled_lt {last freed index : Nat} (hfreed : freed ≤ last) (hindex : index ≤ last)
    (hother : index ≠ freed) : settled last freed index < last := by
  rw [settled]
  split <;> omega

theorem settled_origin {last freed index : Nat} (hindex : index < last) :
    settled last freed (EdgeTable.origin last freed index) = index := by
  by_cases hhere : index = freed
  · rw [EdgeTable.origin, if_pos hhere, settled, if_pos rfl, hhere]
  · rw [EdgeTable.origin, if_neg hhere, settled, if_neg (Nat.ne_of_lt hindex)]

theorem origin_settled {last freed index : Nat} (hother : index ≠ freed) :
    EdgeTable.origin last freed (settled last freed index) = index := by
  by_cases hmoves : index = last
  · rw [settled, if_pos hmoves, EdgeTable.origin, if_pos rfl, hmoves]
  · rw [settled, if_neg hmoves, EdgeTable.origin, if_neg hother]

theorem origin_ne_freed {last freed index : Nat} (hindex : index < last) :
    EdgeTable.origin last freed index ≠ freed := by
  rw [EdgeTable.origin]
  split <;> omega

theorem origin_le_last {last index : Nat} (freed : Nat) (hindex : index < last) :
    EdgeTable.origin last freed index ≤ last := by
  rw [EdgeTable.origin]
  split <;> omega

/-- How a graph looks after the vertex at an index was removed: the vertex with the last
index has settled at the freed one with its edges, and no other index has changed. -/
structure TakenOver (graph after : MatrixGraph V E) (removed : V) (freed last : Nat) :
    Prop where
  table : after.table.WellFormed
  capacity : after.table.capacity = graph.table.capacity
  vertexCount_eq : after.vertexCount = last
  vertices : ∀ index, index < last →
    after.vertices[index]? = graph.vertices[EdgeTable.origin last freed index]?
  indexOf?_eq : ∀ vertex, after.indexOf? vertex =
    if removed == vertex then none
    else (graph.indexOf? vertex).map (settled last freed)
  size_index : after.index.size = last
  edges : ∀ row column, row < graph.table.side → column < graph.table.side →
    after.table.edge? row column =
      if row < last ∧ column < last then
        graph.table.edge? (EdgeTable.origin last freed row)
          (EdgeTable.origin last freed column)
      else none
  edgeCount_eq : after.edgeCount = after.table.edgeCells.card

theorem size_index_erase (hcoherent : graph.Coherent) {removed : V} {freed : Nat}
    (hremoved : graph.indexOf? removed = some freed) :
    (graph.index.erase removed).size = graph.vertexCount - 1 := by
  have hmem : removed ∈ graph.index := by
    rw [Std.HashMap.mem_iff_isSome_getElem?]
    exact Option.isSome_of_eq_some hremoved
  rw [Std.HashMap.size_erase, if_pos hmem, hcoherent.size_index]

/-- The last vertex needs no new place when it is the one that is removed. -/
theorem takenOver_last (hcoherent : graph.Coherent) {removed : V} {last : Nat}
    (hremoved : graph.indexOf? removed = some last)
    (hlast : last = graph.vertexCount - 1) (hisolated : graph.table.Isolated last) :
    TakenOver graph
      { graph with index := graph.index.erase removed, vertices := graph.vertices.pop }
      removed last last where
  table := hcoherent.table
  capacity := rfl
  vertexCount_eq := by
    rw [hlast]
    exact Array.size_pop
  vertices := by
    intro index hindex
    rw [EdgeTable.origin, if_neg (Nat.ne_of_lt hindex)]
    refine (Array.getElem?_pop).trans (if_pos ?_)
    exact Nat.lt_of_lt_of_eq hindex hlast
  indexOf?_eq := by
    intro vertex
    rw [settled_self, Option.map_id_fun, id]
    exact Std.HashMap.getElem?_erase
  size_index := by
    rw [hlast]
    exact size_index_erase hcoherent hremoved
  edges := by
    intro row column hrow hcolumn
    split
    next hkept =>
      rw [EdgeTable.origin, EdgeTable.origin, if_neg (Nat.ne_of_lt hkept.1),
        if_neg (Nat.ne_of_lt hkept.2)]
    next hbeyond =>
      have hlater : ∀ index, last ≤ index → index < graph.table.side →
          graph.table.Isolated index := by
        intro index hindex hinside
        rcases Nat.eq_or_lt_of_le hindex with rfl | hlater
        · exact hisolated
        · exact hcoherent.unused index (by omega) hinside
      by_cases hrowKept : row < last
      · exact (hlater column (by omega) hcolumn row hrow).2
      · exact (hlater row (by omega) hrow column hcolumn).1
  edgeCount_eq := hcoherent.edgeCount_eq

/-- In the index the moved vertex gets the freed index, and the removed one has none. -/
theorem getElem?_index_relocate (hcoherent : graph.Coherent) {removed moved : V}
    {freed last : Nat} (hremoved : graph.indexOf? removed = some freed)
    (hmoved : graph.indexOf? moved = some last) (hdistinct : last ≠ freed) (vertex : V) :
    ((graph.index.erase removed).insert moved freed)[vertex]? =
      if removed == vertex then none
      else (graph.indexOf? vertex).map (settled last freed) := by
  rw [Std.HashMap.getElem?_insert, Std.HashMap.getElem?_erase]
  split
  next hequal =>
    have hfound := (hcoherent.indexOf?_eq_iff hmoved).mpr hequal
    have hkept : ¬ (removed == vertex) = true := by
      rw [← hcoherent.indexOf?_eq_iff hremoved, hfound, Option.some.injEq]
      exact hdistinct
    rw [if_neg hkept, hfound, Option.map_some, settled, if_pos rfl]
  next hother =>
    congr 1
    change graph.indexOf? vertex = _
    cases hindex : graph.indexOf? vertex with
    | none => rfl
    | some index =>
        have hstays : index ≠ last := by
          rintro rfl
          exact hother ((hcoherent.indexOf?_eq_iff hmoved).mp hindex)
        rw [Option.map_some, settled, if_neg hstays]

omit [BEq V] [Hashable V] [Inhabited E] [EquivBEq V] [LawfulHashable V] in
/-- In the list of vertices the last one stands at the freed index. -/
theorem getElem?_vertices_relocate {vertices : Array V} {moved : V} {freed last : Nat}
    (hlast : last = vertices.size - 1) (hfreed : freed < last)
    (hmoved : vertices[last]? = some moved) {index : Nat} (hindex : index < last) :
    (vertices.setIfInBounds freed moved).pop[index]? =
      vertices[EdgeTable.origin last freed index]? := by
  have hstored : index < vertices.size - 1 := Nat.lt_of_lt_of_eq hindex hlast
  rw [Array.getElem?_pop, Array.size_setIfInBounds, if_pos hstored,
    Array.getElem?_setIfInBounds, EdgeTable.origin]
  by_cases hhere : index = freed
  · rw [if_pos hhere, if_pos hhere.symm, if_pos (by omega), hmoved]
  · rw [if_neg hhere, if_neg (Ne.symm hhere)]

/-- Any other freed index is taken over by the last vertex. -/
theorem takenOver_relocate (hcoherent : graph.Coherent) {removed moved : V}
    {freed last : Nat} (hremoved : graph.indexOf? removed = some freed)
    (hlast : last = graph.vertexCount - 1) (hfreed : freed < last)
    (hmoved : graph.vertices[last]? = some moved)
    (hisolated : graph.table.Isolated freed) :
    TakenOver graph
      { graph with
        index := (graph.index.erase removed).insert moved freed
        vertices := (graph.vertices.setIfInBounds freed moved).pop
        table := graph.table.relocate last freed }
      removed freed last := by
  have hcount := hcoherent.vertexCount_le
  have hinside : last < graph.table.side := by omega
  have hbeyond : ∀ index, last < index → index < graph.table.side →
      graph.table.Isolated index :=
    fun index hindex hindexInside => hcoherent.unused index (by omega) hindexInside
  have hmovedIndex : graph.indexOf? moved = some last :=
    (hcoherent.index_iff moved last).mpr (holds_self hmoved)
  have hdistinct : last ≠ freed := Nat.ne_of_gt hfreed
  exact {
    table := hcoherent.table.relocate last freed
    capacity := EdgeTable.capacity_relocate hcoherent.table last freed
    vertexCount_eq := by
      rw [hlast, vertexCount, Array.size_pop, Array.size_setIfInBounds]
      rfl
    vertices := fun index hindex => getElem?_vertices_relocate hlast hfreed hmoved hindex
    indexOf?_eq := getElem?_index_relocate hcoherent hremoved hmovedIndex hdistinct
    size_index := by
      have hmem : moved ∈ graph.index.erase removed := by
        rw [Std.HashMap.mem_erase, Std.HashMap.mem_iff_isSome_getElem?]
        constructor
        · rw [← Bool.not_eq_true, ← hcoherent.indexOf?_eq_iff hremoved, hmovedIndex,
            Option.some.injEq]
          exact hdistinct
        · exact Option.isSome_of_eq_some hmovedIndex
      rw [Std.HashMap.size_insert, if_pos hmem, size_index_erase hcoherent hremoved, hlast]
    edges := fun row column hrow hcolumn =>
      EdgeTable.edge?_relocate hcoherent.table hinside hfreed hisolated hbeyond hrow hcolumn
    edgeCount_eq := by
      rw [EdgeTable.card_edgeCells_relocate hcoherent.table hinside hfreed hisolated hbeyond]
      exact hcoherent.edgeCount_eq }

theorem takenOver_takeOver (hcoherent : graph.Coherent) {removed : V} {freed : Nat}
    (hremoved : graph.indexOf? removed = some freed)
    (hisolated : graph.table.Isolated freed) :
    TakenOver graph
      (({ graph with index := graph.index.erase removed } : MatrixGraph V E).takeOver freed)
      removed freed (graph.vertexCount - 1) := by
  have hfreed := ((hcoherent.index_iff removed freed).mp hremoved).lt_vertexCount
  have hlast : graph.vertexCount - 1 < graph.vertices.size := by
    change graph.vertexCount - 1 < graph.vertexCount
    omega
  have hmoved : graph.vertices[graph.vertexCount - 1]? =
      some graph.vertices[graph.vertexCount - 1] := Array.getElem?_eq_getElem hlast
  have hopen : (({ graph with index := graph.index.erase removed } :
        MatrixGraph V E).takeOver freed) =
      if freed = graph.vertexCount - 1 then
        { graph with index := graph.index.erase removed, vertices := graph.vertices.pop }
      else
        { graph with
          index := (graph.index.erase removed).insert
            graph.vertices[graph.vertexCount - 1] freed
          vertices := (graph.vertices.setIfInBounds freed
            graph.vertices[graph.vertexCount - 1]).pop
          table := graph.table.relocate (graph.vertexCount - 1) freed } := by
    unfold takeOver
    dsimp only [vertexCount] at hmoved ⊢
    rw [hmoved]
    rfl
  rw [hopen]
  split
  next hend =>
    subst hend
    exact takenOver_last hcoherent hremoved rfl hisolated
  next hinner =>
    exact takenOver_relocate hcoherent hremoved rfl (by omega) hmoved hisolated

/-- Removing a vertex lets the last one take its index. -/
theorem takenOver_removeVertex (hcoherent : graph.Coherent) {removed : V} {freed : Nat}
    (hremoved : graph.indexOf? removed = some freed) :
    TakenOver graph (graph.removeVertex removed).2 removed freed (graph.vertexCount - 1) := by
  have hfreed := ((hcoherent.index_iff removed freed).mp hremoved).lt_vertexCount
  have hcount := hcoherent.vertexCount_le
  obtain ⟨hisolatedCoherent, hisolated, hcross⟩ := hcoherent.isolate hfreed
  obtain ⟨hvertices, hindex, hcapacity⟩ :=
    dropEdges_frame (crossing graph.vertexCount freed) graph
  rw [← isolate_eq_dropEdges] at hvertices hindex hcapacity
  have hindexOf : ∀ vertex, (graph.isolate freed).indexOf? vertex = graph.indexOf? vertex := by
    intro vertex
    rw [indexOf?, indexOf?, hindex]
  have hvertexCount : (graph.isolate freed).vertexCount = graph.vertexCount := by
    rw [vertexCount, vertexCount, hvertices]
  have hside : (graph.isolate freed).table.side = graph.table.side :=
    congrArg UInt64.toNat hcapacity
  rw [removeVertex_of_some hremoved]
  have htaken := takenOver_takeOver hisolatedCoherent ((hindexOf removed).trans hremoved)
    hisolated
  rw [hvertexCount] at htaken
  exact {
    table := htaken.table
    capacity := htaken.capacity.trans hcapacity
    vertexCount_eq := htaken.vertexCount_eq
    vertices := by
      intro index hlast
      rw [htaken.vertices index hlast, hvertices]
    indexOf?_eq := by
      intro vertex
      rw [htaken.indexOf?_eq vertex, hindexOf]
    size_index := htaken.size_index
    edges := by
      intro row column hrow hcolumn
      rw [htaken.edges row column (by omega) (by omega)]
      split
      next hkept =>
        have hrowOrigin := origin_le_last freed hkept.1
        have hcolumnOrigin := origin_le_last freed hkept.2
        rw [hcross _ _ (by omega) (by omega)]
        apply if_neg
        rintro (hfreedRow | hfreedColumn)
        · exact origin_ne_freed hkept.1 hfreedRow
        · exact origin_ne_freed hkept.2 hfreedColumn
      next => rfl
    edgeCount_eq := htaken.edgeCount_eq }

section Settle

variable {after : MatrixGraph V E} {removed : V} {freed last : Nat}

omit [EquivBEq V] [LawfulHashable V] in
theorem TakenOver.holds_iff (htaken : TakenOver graph after removed freed last)
    (index : Nat) (vertex : V) :
    after.Holds index vertex ↔
      index < last ∧ graph.Holds (EdgeTable.origin last freed index) vertex := by
  constructor
  · intro hheld
    have hindex : index < last := htaken.vertexCount_eq ▸ hheld.lt_vertexCount
    obtain ⟨stored, hstored, hsame⟩ := hheld
    exact ⟨hindex, stored, htaken.vertices index hindex ▸ hstored, hsame⟩
  · rintro ⟨hindex, stored, hstored, hsame⟩
    exact ⟨stored, (htaken.vertices index hindex).trans hstored, hsame⟩

omit [LawfulHashable V] in
/-- A vertex other than the removed one settles below the last index, and comes from the
index that it had. -/
theorem Coherent.settled_indexOf? (hcoherent : graph.Coherent)
    (hremoved : graph.indexOf? removed = some freed) (hlast : last = graph.vertexCount - 1)
    {vertex : V} {index : Nat} (hkept : ¬ (removed == vertex) = true)
    (hindex : graph.indexOf? vertex = some index) :
    settled last freed index < last ∧
      EdgeTable.origin last freed (settled last freed index) = index := by
  have hfreed := hcoherent.lt_vertexCount hremoved
  have hbound := hcoherent.lt_vertexCount hindex
  have hother : index ≠ freed := by
    rintro rfl
    exact hkept ((hcoherent.indexOf?_eq_iff hremoved).mp hindex)
  exact ⟨settled_lt (by omega) (by omega) hother, origin_settled hother⟩

omit [LawfulHashable V] in
/-- The index still leads from a vertex to the place where an equal one stands. -/
theorem TakenOver.index_iff (htaken : TakenOver graph after removed freed last)
    (hcoherent : graph.Coherent) (hremoved : graph.indexOf? removed = some freed)
    (hlast : last = graph.vertexCount - 1) (vertex : V) (index : Nat) :
    after.indexOf? vertex = some index ↔ after.Holds index vertex := by
  rw [htaken.indexOf?_eq vertex, htaken.holds_iff]
  constructor
  · intro hfound
    split at hfound
    next => simp at hfound
    next hkept =>
      obtain ⟨former, hformer, rfl⟩ := Option.map_eq_some_iff.mp hfound
      obtain ⟨hplace, hback⟩ := hcoherent.settled_indexOf? hremoved hlast hkept hformer
      rw [hback]
      exact ⟨hplace, (hcoherent.index_iff vertex former).mp hformer⟩
  · rintro ⟨hindex, hheld⟩
    have hfound := (hcoherent.index_iff vertex _).mpr hheld
    have hkept : ¬ (removed == vertex) = true := by
      rw [← hcoherent.indexOf?_eq_iff hremoved, hfound, Option.some.injEq]
      exact origin_ne_freed hindex
    rw [if_neg hkept, hfound, Option.map_some, settled_origin hindex]

omit [LawfulHashable V] in
/-- The graph is coherent again once the last vertex has settled. -/
theorem TakenOver.coherent (htaken : TakenOver graph after removed freed last)
    (hcoherent : graph.Coherent) (hremoved : graph.indexOf? removed = some freed)
    (hlast : last = graph.vertexCount - 1) : after.Coherent := by
  have hfreed := hcoherent.lt_vertexCount hremoved
  have hcount := hcoherent.vertexCount_le
  have hside : after.table.side = graph.table.side := congrArg UInt64.toNat htaken.capacity
  exact {
    table := htaken.table
    side_pos := by
      rw [hside]
      exact hcoherent.side_pos
    vertexCount_le := by
      rw [htaken.vertexCount_eq, hside]
      omega
    index_iff := htaken.index_iff hcoherent hremoved hlast
    size_index := htaken.size_index.trans htaken.vertexCount_eq.symm
    unused := by
      intro index hindex hinside other hother
      rw [htaken.vertexCount_eq] at hindex
      rw [hside] at hinside hother
      rw [htaken.edges index other hinside hother, htaken.edges other index hother hinside,
        if_neg (by omega), if_neg (by omega)]
      exact ⟨rfl, rfl⟩
    edgeCount_eq := htaken.edgeCount_eq }

end Settle

end Remove

end MatrixGraph

end Collections
