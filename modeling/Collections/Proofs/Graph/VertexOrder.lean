import Mathlib
import Collections.Proofs.Graph.Lockstep

/-!
# The order of the vertices of a matrix graph

The vertices stand in a list.  A new vertex is appended to it, and when a vertex is removed
the last one takes its place.  The index of a vertex is its place in this list, and its edges
are listed in the order of their targets, so all that a relocation changes is told by the list.
-/

namespace Collections

universe u v

/-! ## The list of the vertices -/

/-- The list without the item at an index, whose place the last item takes. -/
def closeGap {α : Type u} (items : List α) (index : Nat) : List α :=
  match items.getLast? with
  | some last => (items.set index last).dropLast
  | none => []

theorem getElem?_closeGap {α : Type u} {items : List α} {freed last : Nat}
    (hfreed : freed < items.length) (hlast : last = items.length - 1) (index : Nat) :
    (closeGap items freed)[index]? =
      if index < last then items[EdgeTable.origin last freed index]? else none := by
  have hmoved : items.getLast? = some items[last] := by
    rw [List.getLast?_eq_getElem?, ← hlast, List.getElem?_eq_getElem]
  rw [closeGap, hmoved]
  dsimp only
  rw [List.getElem?_dropLast, List.length_set, ← hlast, List.getElem?_set, EdgeTable.origin]
  split
  next hindex =>
    by_cases hhere : index = freed
    · rw [if_pos hhere.symm, hhere, if_pos rfl, List.getElem?_eq_getElem]
    · rw [if_neg (Ne.symm hhere), if_neg hhere]
  next => rfl

/-- What a call does to the list of the vertices of a graph. -/
def GraphCall.onRoster {V : Type u} {E : Type v} [BEq V] (roster : List V) :
    GraphCall V E → List V
  | .addVertex _ vertex => if roster.any (· == vertex) then roster else roster ++ [vertex]
  | .removeVertex vertex =>
    match roster.findIdx? (· == vertex) with
    | some index => closeGap roster index
    | none => roster
  | .addEdge _ _ _ | .removeEdge _ _ => roster
  | .clear => []

namespace MatrixGraph

variable {V : Type u} {E : Type v} [BEq V] [Hashable V] [Inhabited E]

section Roster

variable {graph : MatrixGraph V E}

/-- The index of a vertex is its place in the list. -/
theorem Coherent.indexOf?_eq_findIdx? (hcoherent : graph.Coherent) (vertex : V) :
    graph.indexOf? vertex = graph.vertices.toList.findIdx? (· == vertex) := by
  cases hplace : graph.vertices.toList.findIdx? (· == vertex) with
  | none =>
      rw [List.findIdx?_eq_none_iff] at hplace
      rw [Option.eq_none_iff_forall_ne_some]
      intro index hindex
      obtain ⟨stored, hstored, hsame⟩ := (hcoherent.index_iff vertex index).mp hindex
      have hlisted : stored ∈ graph.vertices.toList :=
        Array.mem_toList_iff.mpr (Array.mem_of_getElem? hstored)
      exact absurd hsame (Bool.eq_false_iff.mp (hplace stored hlisted))
  | some index =>
      obtain ⟨hbound, hsame, -⟩ := List.findIdx?_eq_some_iff_getElem.mp hplace
      rw [hcoherent.index_iff]
      refine ⟨graph.vertices.toList[index], ?_, hsame⟩
      rw [← Array.getElem?_toList, List.getElem?_eq_getElem hbound]

variable [EquivBEq V] [LawfulHashable V]

theorem Coherent.hasVertex_eq_any (hcoherent : graph.Coherent) (vertex : V) :
    graph.hasVertex vertex = graph.vertices.toList.any (· == vertex) := by
  rw [hasVertex_eq_isSome, hcoherent.indexOf?_eq_findIdx?, List.findIdx?_isSome]

omit [EquivBEq V] [LawfulHashable V] in
/-- After a removal the last vertex stands in the place of the removed one. -/
theorem TakenOver.toList_eq {after : MatrixGraph V E} {removed : V} {freed last : Nat}
    (htaken : TakenOver graph after removed freed last) (hfreed : freed < graph.vertexCount)
    (hlast : last = graph.vertexCount - 1) :
    after.vertices.toList = closeGap graph.vertices.toList freed := by
  ext1 index
  rw [getElem?_closeGap hfreed hlast, Array.getElem?_toList, Array.getElem?_toList]
  split
  next hindex => exact htaken.vertices index hindex
  next hbeyond =>
    apply Array.getElem?_eq_none
    exact htaken.vertexCount_eq.trans_le (Nat.le_of_not_lt hbeyond)

variable [ByteSize E] [Literal V]

/-- A call changes the list of the vertices as the list says. -/
theorem Coherent.toList_perform (hcoherent : graph.Coherent) {call : GraphCall V E}
    (hgranted : graph.Granted call) :
    (DirectedGraph.perform graph call).2.vertices.toList =
      call.onRoster graph.vertices.toList := by
  cases call with
  | addVertex memory vertex =>
      change (graph.addVertex memory vertex).state.vertices.toList = _
      rw [GraphCall.onRoster, ← hcoherent.hasVertex_eq_any]
      rcases addVertex_cases memory graph vertex with
        ⟨hmem, hstep⟩ | ⟨habsent, -, hstep⟩ |
          ⟨habsent, -, larger, -, -, hstep⟩ | ⟨habsent, hfull, hrefused, -⟩
      · rw [hstep, hmem]
        rfl
      · rw [hstep, habsent]
        exact Array.toList_push
      · rw [hstep, habsent]
        exact Array.toList_push
      · exact absurd (hgranted habsent hfull) hrefused
  | addEdge source target cost =>
      change (graph.addEdge source target cost).2.vertices.toList = _
      rw [addEdge]
      split <;> rfl
  | removeEdge source target =>
      change (graph.removeEdge source target).2.vertices.toList = _
      rw [removeEdge]
      split
      next row column _ _ => exact congrArg Array.toList (vertices_dropEdge graph row column)
      next => rfl
  | removeVertex vertex =>
      change (graph.removeVertex vertex).2.vertices.toList = _
      rw [GraphCall.onRoster, ← hcoherent.indexOf?_eq_findIdx?]
      cases hremoved : graph.indexOf? vertex with
      | none => rw [removeVertex_of_none hremoved]
      | some freed =>
          exact (takenOver_removeVertex hcoherent hremoved).toList_eq
            (hcoherent.lt_vertexCount hremoved) rfl
  | clear => rfl

theorem Coherent.toList_run (calls : List (GraphCall V E)) :
    ∀ {graph : MatrixGraph V E}, graph.Coherent →
      Calls.Throughout DirectedGraph.perform Granted graph calls →
        (Calls.run DirectedGraph.perform graph calls).2.vertices.toList =
          calls.foldl GraphCall.onRoster graph.vertices.toList := by
  induction calls with
  | nil => exact fun _ _ => rfl
  | cons call calls ih =>
      intro graph hcoherent hgranted
      rw [List.foldl_cons, ← hcoherent.toList_perform hgranted.1]
      exact ih (hcoherent.perform call) hgranted.2

end Roster

/-! ## Edges in the order of their targets -/

section Listing

variable {graph : MatrixGraph V E}

/-- The columns from one on in which a row has an edge. -/
def columnsFrom (graph : MatrixGraph V E) (row column : Nat) : List Nat :=
  (List.range' column (graph.vertexCount - column)).filter (graph.table.present row)

/-- The edges in a row for the columns from one on. -/
def edgesFrom (graph : MatrixGraph V E) (row column : Nat) : List (V × E) :=
  (List.range' column (graph.vertexCount - column)).filterMap (graph.edgeAt? row)

omit [Inhabited E] in
theorem columnsFrom_vertexCount (graph : MatrixGraph V E) (row : Nat) :
    graph.columnsFrom row graph.vertexCount = [] := by
  rw [columnsFrom, Nat.sub_self]
  rfl

omit [Inhabited E] in
/-- The scan of a row stops at its next column with an edge, or it finds that there is none. -/
theorem nextColumn?_cases (graph : MatrixGraph V E) (row count : Nat) :
    ∀ column, column + count = graph.vertexCount →
      (graph.table.nextColumn? row count column = none ∧ graph.columnsFrom row column = []) ∨
      ∃ found, graph.table.nextColumn? row count column = some found ∧ column ≤ found ∧
        found < graph.vertexCount ∧ graph.table.present row found = true ∧
          graph.columnsFrom row column = found :: graph.columnsFrom row (found + 1) := by
  induction count with
  | zero =>
      intro column hcolumn
      obtain rfl : column = graph.vertexCount := hcolumn
      exact Or.inl ⟨rfl, graph.columnsFrom_vertexCount row⟩
  | succ count ih =>
      intro column hcolumn
      have hcount : graph.vertexCount - column = graph.vertexCount - (column + 1) + 1 := by omega
      rw [EdgeTable.nextColumn?, columnsFrom, hcount, List.range'_succ, List.filter_cons]
      by_cases hpresent : graph.table.present row column = true
      · rw [if_pos hpresent, if_pos hpresent]
        exact Or.inr ⟨column, rfl, Nat.le_refl column, by omega, hpresent, rfl⟩
      · rw [if_neg hpresent, if_neg hpresent]
        rcases ih (column + 1) (by omega) with hnone | ⟨found, hfound, hbehind, hothers⟩
        · exact Or.inl hnone
        · exact Or.inr ⟨found, hfound, Nat.le_of_succ_le hbehind, hothers⟩

theorem Coherent.isSome_edgeAt? (hcoherent : graph.Coherent) (row : Nat) {column : Nat}
    (hcolumn : column < graph.vertexCount) :
    (graph.edgeAt? row column).isSome = graph.table.present row column := by
  have hstored : graph.vertexAt? column = some graph.vertices[column] :=
    Array.getElem?_eq_getElem hcolumn
  rw [EdgeTable.present_eq_isSome hcoherent.table, edgeAt?, hstored, Option.bind_some,
    Option.isSome_map]

theorem Coherent.edgesFrom_eq (hcoherent : graph.Coherent) (row column : Nat) :
    graph.edgesFrom row column =
      (graph.columnsFrom row column).filterMap (graph.edgeAt? row) := by
  rw [edgesFrom, columnsFrom, List.filterMap_filter]
  apply List.filterMap_congr
  intro other hother
  have hinside : other < graph.vertexCount := by
    have hrange := List.mem_range'_1.mp hother
    omega
  rw [← hcoherent.isSome_edgeAt? row hinside]
  cases graph.edgeAt? row other <;> rfl

/-- A walk over the edges of a vertex has these edges before it. -/
def EdgeWalk.Shows (walk : EdgeWalk V E) (left : List (V × E)) : Prop :=
  walk.column ≤ walk.graph.vertexCount ∧
    left = match walk.row with
      | some row => walk.graph.edgesFrom row walk.column
      | none => []

theorem EdgeWalk.next_of_shows {walk : EdgeWalk V E} {left : List (V × E)}
    (hcoherent : walk.graph.Coherent) (hshows : walk.Shows left) :
    walk.next.1 = left.head? ∧ walk.next.2.Shows left.tail ∧
      walk.next.2.graph = walk.graph := by
  obtain ⟨graph, row, column⟩ := walk
  obtain ⟨hcolumn, rfl⟩ := hshows
  cases row with
  | none => exact ⟨rfl, ⟨hcolumn, rfl⟩, rfl⟩
  | some row =>
      have hcount : column + (graph.vertexCount - column) = graph.vertexCount :=
        Nat.add_sub_cancel' hcolumn
      rw [EdgeWalk.next]
      dsimp only [columnsLeft]
      rw [hcoherent.edgesFrom_eq]
      rcases graph.nextColumn?_cases row _ column hcount with
        ⟨hnone, hempty⟩ | ⟨found, hsome, -, hfound, hpresent, hcons⟩
      · rw [hnone, hempty]
        refine ⟨rfl, ⟨hcount.le, ?_⟩, rfl⟩
        change [] = graph.edgesFrom row (column + (graph.vertexCount - column))
        rw [hcount, hcoherent.edgesFrom_eq, columnsFrom_vertexCount]
        rfl
      · rw [← hcoherent.isSome_edgeAt? row hfound] at hpresent
        obtain ⟨edge, hedge⟩ := Option.isSome_iff_exists.mp hpresent
        rw [hsome, hcons, List.filterMap_cons_some hedge, ← hcoherent.edgesFrom_eq]
        exact ⟨hedge, ⟨hfound, rfl⟩, rfl⟩

theorem EdgeWalk.map_fst_calls (count : Nat) :
    ∀ {walk : EdgeWalk V E} {left : List (V × E)}, walk.graph.Coherent → walk.Shows left →
      (calls count walk).map Prod.fst = (List.range count).map (left[·]?) := by
  induction count with
  | zero => exact fun _ _ => rfl
  | succ count ih =>
      intro walk left hcoherent hshows
      obtain ⟨hedge, hrest, hgraph⟩ := next_of_shows hcoherent hshows
      rw [← hgraph] at hcoherent
      rw [calls, List.map_cons, List.range_succ_eq_map, List.map_cons, List.map_map]
      dsimp only
      rw [hedge, ih hcoherent hrest, List.head?_eq_getElem?]
      congr 2
      funext place
      exact List.getElem?_tail

/-- A walk over the edges of a vertex yields the listed ones in turn, then nothing. -/
theorem Coherent.calls_walkEdges (hcoherent : graph.Coherent) (vertex : V) (count : Nat) :
    (EdgeWalk.calls count (graph.walkEdges vertex)).map Prod.fst =
      (List.range count).map ((graph.edges vertex)[·]?) := by
  apply EdgeWalk.map_fst_calls count hcoherent
  refine ⟨Nat.zero_le _, ?_⟩
  rw [edges, walkEdges]
  cases graph.indexOf? vertex with
  | none => rfl
  | some row => exact congrArg (List.filterMap (graph.edgeAt? row)) List.range_eq_range'

/-- The edges are listed by the places of their targets. -/
theorem Coherent.edges_eq_filterMap [EquivBEq V] (hcoherent : graph.Coherent) (source : V) :
    graph.edges source =
      (List.range graph.vertexCount).filterMap fun column =>
        (graph.vertexAt? column).bind fun target =>
          (graph.edgeCost? source target).map fun cost => (target, cost) := by
  rw [edges]
  cases hrow : graph.indexOf? source with
  | none => simp [edgeCost?_eq_bind, hrow]
  | some row =>
      apply List.filterMap_congr
      intro column _
      rw [edgeAt?]
      apply Option.bind_congr
      intro target htarget
      have hcolumn : graph.indexOf? target = some column :=
        (hcoherent.index_iff target column).mpr (holds_self htarget)
      rw [edgeCost?_eq_bind, hrow, hcolumn, Option.bind_some, Option.bind_some]

end Listing

/-! ## Relocations -/

section Relocation

variable [EquivBEq V] [LawfulHashable V] {graph : MatrixGraph V E}

omit [EquivBEq V] [LawfulHashable V] in
/-- Only the last vertex has another index after a removal. -/
theorem TakenOver.last_of_moved {after : MatrixGraph V E} {removed vertex : V} {freed last : Nat}
    (htaken : TakenOver graph after removed freed last) (hkept : ¬ (removed == vertex) = true)
    (hmoved : after.indexOf? vertex ≠ graph.indexOf? vertex) :
    graph.indexOf? vertex = some last := by
  rw [htaken.indexOf?_eq, if_neg hkept] at hmoved
  cases hindex : graph.indexOf? vertex with
  | none => exact absurd (by rw [hindex]; rfl) hmoved
  | some index =>
      rw [hindex, Option.map_some, ne_eq, Option.some.injEq, settled] at hmoved
      split at hmoved
      next hlast => rw [hlast]
      next => exact absurd rfl hmoved

/-- What a removal leaves to the other vertices: all of them their costs, and all but one their
indices. -/
structure Relocated (graph after : MatrixGraph V E) (removed : V) : Prop where
  costs : ∀ source target, ¬ (removed == source) = true → ¬ (removed == target) = true →
    after.edgeCost? source target = graph.edgeCost? source target
  moved_eq : ∀ first second, ¬ (removed == first) = true → ¬ (removed == second) = true →
    after.indexOf? first ≠ graph.indexOf? first →
      after.indexOf? second ≠ graph.indexOf? second → (first == second) = true

theorem Coherent.relocated (hcoherent : graph.Coherent) (removed : V) :
    graph.Relocated (graph.removeVertex removed).2 removed := by
  cases hremoved : graph.indexOf? removed with
  | none =>
      rw [removeVertex_of_none hremoved]
      exact ⟨fun _ _ _ _ => rfl, fun _ _ _ _ hmoved _ => absurd rfl hmoved⟩
  | some freed =>
      have htaken := takenOver_removeVertex hcoherent hremoved
      constructor
      · intro source target hsource htarget
        rw [htaken.edgeCost?_eq hcoherent hremoved rfl, if_neg (not_or.mpr ⟨hsource, htarget⟩)]
      · intro first second hfirst hsecond hmovedFirst hmovedSecond
        have hlast := htaken.last_of_moved hfirst hmovedFirst
        exact (hcoherent.indexOf?_eq_iff hlast).mp (htaken.last_of_moved hsecond hmovedSecond)

end Relocation

/-! ## Runs -/

section Runs

variable [EquivBEq V] [LawfulHashable V]

/-- The vertices of a graph are a list of vertices, their indices are the places in the list, and
the edges are those of a graph with costs, in the order of their targets. -/
structure Enumerates (graph : MatrixGraph V E) (roster : List V)
    (model : CostGraph (EqClass V) E) : Prop where
  vertices_eq : graph.vertices.toList = roster
  indexOf?_eq : ∀ vertex, graph.indexOf? vertex = roster.findIdx? (· == vertex)
  vertexAt?_eq : ∀ index, graph.vertexAt? index = roster[index]?
  edgeCost?_eq : ∀ source target,
    graph.edgeCost? source target = model.cost? (.of source) (.of target)
  /-- The cells of the table follow the places of the vertices. -/
  edge?_eq : ∀ row column (hrow : row < roster.length) (hcolumn : column < roster.length),
    graph.table.edge? row column = model.cost? (.of roster[row]) (.of roster[column])
  edges_eq : ∀ source, graph.edges source =
    (List.range roster.length).filterMap fun column =>
      roster[column]?.bind fun target =>
        (model.cost? (.of source) (.of target)).map fun cost => (target, cost)
  calls_walkEdges : ∀ source count, (EdgeWalk.calls count (graph.walkEdges source)).map Prod.fst =
    (List.range count).map ((graph.edges source)[·]?)
  relocated : ∀ removed, graph.Relocated (graph.removeVertex removed).2 removed

variable {graph : MatrixGraph V E} {model : CostGraph (EqClass V) E}

theorem Depicts.enumerates (hdepicts : graph.Depicts model) (hcoherent : graph.Coherent) :
    graph.Enumerates graph.vertices.toList model where
  vertices_eq := rfl
  indexOf?_eq := hcoherent.indexOf?_eq_findIdx?
  vertexAt?_eq := fun index => Array.getElem?_toList.symm
  edgeCost?_eq := hdepicts.costs
  edge?_eq := fun row column hrow hcolumn =>
    (hdepicts.cost?_nodeAt hcoherent ⟨row, hrow⟩ ⟨column, hcolumn⟩).symm
  edges_eq := by
    intro source
    rw [hcoherent.edges_eq_filterMap]
    simp only [hdepicts.costs, Array.getElem?_toList]
    rfl
  calls_walkEdges := hcoherent.calls_walkEdges
  relocated := hcoherent.relocated

variable [ByteSize E]

theorem Initial.depicts_empty (hinitial : graph.Initial) :
    graph.Depicts .empty ∧ graph.vertices.toList = [] := by
  rcases hinitial with rfl | ⟨memory, settings, hgraph⟩
  · exact ⟨MatrixGraph.depicts_empty, rfl⟩
  · obtain ⟨-, -, rfl⟩ := withSettings_eq_ok hgraph
    exact ⟨MatrixGraph.depicts_empty, rfl⟩

variable [Literal V]

theorem Depicts.run (calls : List (GraphCall V E)) :
    ∀ {graph : MatrixGraph V E} {model : CostGraph (EqClass V) E}, graph.Depicts model →
      graph.Coherent → Calls.Throughout DirectedGraph.perform Granted graph calls →
        (Calls.run DirectedGraph.perform graph calls).2.Depicts
            (Calls.run CostGraph.perform model calls).2 ∧
          (Calls.run DirectedGraph.perform graph calls).2.Coherent := by
  induction calls with
  | nil => exact fun hdepicts hcoherent _ => ⟨hdepicts, hcoherent⟩
  | cons call calls ih =>
      intro graph model hdepicts hcoherent hgranted
      exact ih (hdepicts.perform hcoherent hgranted.1).2 (hcoherent.perform call) hgranted.2

/-- In every run of a new graph for which memory is granted, the vertices are the list to which
new ones are appended and in which the last one takes the place of a removed one. -/
theorem Initial.run_enumerates (hinitial : graph.Initial) (calls : List (GraphCall V E))
    (hgranted : Calls.Throughout DirectedGraph.perform Granted graph calls) :
    (Calls.run DirectedGraph.perform graph calls).2.Enumerates
      (calls.foldl GraphCall.onRoster []) (Calls.run CostGraph.perform .empty calls).2 := by
  obtain ⟨hdepicts, hnone⟩ := hinitial.depicts_empty
  obtain ⟨hfinal, hcoherent⟩ := hdepicts.run calls hinitial.coherent hgranted
  rw [← hnone, ← hinitial.coherent.toList_run calls hgranted]
  exact hfinal.enumerates hcoherent

theorem run_enumerates_relocatingCalls :
    Initial (ofTable (.blank 1) : MatrixGraph Nat Int64) ∧
      Calls.Throughout DirectedGraph.perform Granted
        (ofTable (.blank 1) : MatrixGraph Nat Int64) relocatingCalls ∧
      (Calls.run DirectedGraph.perform
        (ofTable (.blank 1) : MatrixGraph Nat Int64) relocatingCalls).2.Enumerates [3, 2, 4]
          (Calls.run CostGraph.perform .empty relocatingCalls).2 ∧
      (Calls.run DirectedGraph.perform
        (ofTable (.blank 1) : MatrixGraph Nat Int64) relocatingCalls).2.edges 2 = [(3, 9)] := by
  have hinitial : Initial (ofTable (.blank 1) : MatrixGraph Nat Int64) :=
    Or.inr ⟨.unlimited, ⟨1⟩, by rfl⟩
  have hgranted : Calls.Throughout DirectedGraph.perform Granted
      (ofTable (.blank 1) : MatrixGraph Nat Int64) relocatingCalls :=
    ⟨fun _ _ => ⟨2, by cbv, by rfl⟩, fun _ _ => ⟨2, by cbv, by rfl⟩,
      fun _ _ => ⟨4, by cbv, by rfl⟩, trivial, trivial, trivial, trivial,
      fun _ _ => ⟨8, by cbv, by rfl⟩, trivial⟩
  have hlisted := hinitial.run_enumerates relocatingCalls hgranted
  refine ⟨hinitial, hgranted, hlisted, ?_⟩
  rw [hlisted.edges_eq]
  cbv

end Runs

end MatrixGraph

end Collections
