import Mathlib
import Collections.Proofs.Graph.VertexOrder

/-!
# Walks over the edges of a vertex

A walk over the edges of a vertex scans the row of the vertex from left to right and stops at
every column with an edge.  After any number of calls it stands right behind the column of the
last edge that it found, or behind the last column once it has found no more, and it promises at
most as many edges as there are columns that it has not scanned.
-/

namespace Collections

universe u v

namespace MatrixGraph

variable {V : Type u} {E : Type v} [BEq V] [Hashable V]

/-- A walk after a number of calls. -/
def EdgeWalk.after (walk : EdgeWalk V E) : Nat → EdgeWalk V E
  | 0 => walk
  | count + 1 => (after walk count).next.2

theorem EdgeWalk.after_succ (walk : EdgeWalk V E) (count : Nat) :
    walk.after (count + 1) = walk.next.2.after count := by
  induction count with
  | zero => rfl
  | succ count ih => exact congrArg (fun rest => rest.next.2) ih

/-- What a number of calls yields is what each of them yields. -/
theorem EdgeWalk.calls_eq_map (count : Nat) :
    ∀ walk : EdgeWalk V E, calls count walk = (List.range count).map fun turn =>
      ((walk.after turn).next.1, (walk.after (turn + 1)).bounds) := by
  induction count with
  | zero => exact fun walk => rfl
  | succ count ih =>
      intro walk
      rw [calls, List.range_succ_eq_map, List.map_cons, List.map_map]
      dsimp only
      rw [ih]
      apply congrArg (_ :: ·)
      apply List.map_congr_left
      intro turn _
      simp only [Function.comp_apply, Nat.succ_eq_add_one, after_succ]

/-- The columns of the edges that leave a vertex, from left to right. -/
def edgeColumns (graph : MatrixGraph V E) (vertex : V) : List Nat :=
  match graph.indexOf? vertex with
  | some row => (List.range graph.vertexCount).filter (graph.table.present row)
  | none => []

/-- How many columns a number of calls scans: those up to the one in which the last call finds an
edge, and all of them if it finds none. -/
def columnsScanned (graph : MatrixGraph V E) (vertex : V) : Nat → Nat
  | 0 => 0
  | count + 1 =>
    match (graph.edgeColumns vertex)[count]? with
    | some column => column + 1
    | none => graph.vertexCount

/-- How a walk over the edges of a vertex goes on, whatever the number of its calls is. -/
structure WalksEdges (graph : MatrixGraph V E) (vertex : V) : Prop where
  increasing : (graph.edgeColumns vertex).Pairwise (· < ·)
  mem_edgeColumns : ∀ column, column ∈ graph.edgeColumns vertex ↔
    ∃ target, graph.vertexAt? column = some target ∧ graph.hasEdge vertex target = true
  /-- A call finds the edge in the next one of these columns. -/
  yields : ∀ count column, (graph.edgeColumns vertex)[count]? = some column →
    ∃ target cost, graph.vertexAt? column = some target ∧
      graph.edgeCost? vertex target = some cost ∧
        ((graph.walkEdges vertex).after count).next.1 = some (target, cost)
  /-- Behind the last one of these columns no call finds anything. -/
  ends : ∀ count, (graph.edgeColumns vertex).length ≤ count →
    ((graph.walkEdges vertex).after count).next.1 = none
  /-- The cells of the row lie in both tables. -/
  inside : ∀ row column, graph.indexOf? vertex = some row → column < graph.vertexCount →
    graph.table.cell row column < graph.table.presence.size ∧
      graph.table.cell row column < graph.table.costs.size
  bounds_of_present : graph.hasVertex vertex = true → ∀ count,
    ((graph.walkEdges vertex).after count).bounds =
      (0, graph.vertexCount - graph.columnsScanned vertex count)
  /-- An absent vertex has no edges, and none are promised. -/
  absent : graph.hasVertex vertex = false →
    graph.edgeColumns vertex = [] ∧
      ∀ count, ((graph.walkEdges vertex).after count).bounds = (0, 0)
  bounds_antitone : ∀ count, ((graph.walkEdges vertex).after (count + 1)).bounds.2 ≤
    ((graph.walkEdges vertex).after count).bounds.2
  /-- As many edges are promised as there are still to come, or more. -/
  bounds_suffice : ∀ count, (graph.edgeColumns vertex).length - count ≤
    ((graph.walkEdges vertex).after count).bounds.2
  calls_eq : ∀ count, EdgeWalk.calls count (graph.walkEdges vertex) =
    (List.range count).map fun turn => (((graph.walkEdges vertex).after turn).next.1,
      ((graph.walkEdges vertex).after (turn + 1)).bounds)

/-! ## One call -/

variable {graph : MatrixGraph V E} {vertex : V} {row column : Nat}

/-- A call goes on to the next column with an edge, or behind the last column. -/
theorem EdgeWalk.next_eq (graph : MatrixGraph V E) (row : Nat)
    (hcolumn : column ≤ graph.vertexCount) :
    (graph.columnsFrom row column = [] ∧
        next ⟨graph, some row, column⟩ = (none, ⟨graph, some row, graph.vertexCount⟩)) ∨
      ∃ found, graph.columnsFrom row column = found :: graph.columnsFrom row (found + 1) ∧
        column ≤ found ∧ found < graph.vertexCount ∧
          next ⟨graph, some row, column⟩ =
            (graph.edgeAt? row found, ⟨graph, some row, found + 1⟩) := by
  have hcount : column + (graph.vertexCount - column) = graph.vertexCount :=
    Nat.add_sub_cancel' hcolumn
  rw [next]
  dsimp only [columnsLeft]
  rcases graph.nextColumn?_cases row _ column hcount with
    ⟨hnone, hempty⟩ | ⟨found, hsome, hbehind, hfound, -, hcons⟩
  · rw [hnone, hcount]
    exact Or.inl ⟨hempty, rfl⟩
  · rw [hsome]
    exact Or.inr ⟨found, hcons, hbehind, hfound, rfl⟩

theorem edgeColumns_of_some (hrow : graph.indexOf? vertex = some row) :
    graph.edgeColumns vertex = graph.columnsFrom row 0 := by
  rw [edgeColumns, hrow, columnsFrom, Nat.sub_zero, List.range_eq_range']

/-! ## All calls -/

/-- After any number of calls the columns that were not scanned are those of the edges that were
not found. -/
theorem after_walkEdges (hrow : graph.indexOf? vertex = some row) (count : Nat) :
    (graph.walkEdges vertex).after count =
        ⟨graph, some row, graph.columnsScanned vertex count⟩ ∧
      graph.columnsScanned vertex count ≤ graph.vertexCount ∧
        graph.columnsFrom row (graph.columnsScanned vertex count) =
          (graph.edgeColumns vertex).drop count := by
  induction count with
  | zero =>
      refine ⟨?_, Nat.zero_le _, (edgeColumns_of_some hrow).symm⟩
      rw [EdgeWalk.after, walkEdges, hrow]
      rfl
  | succ count ih =>
      obtain ⟨hafter, hscanned, hleft⟩ := ih
      rw [EdgeWalk.after, hafter, columnsScanned, ← List.head?_drop, ← List.tail_drop, ← hleft]
      rcases EdgeWalk.next_eq graph row hscanned with
        ⟨hempty, hnext⟩ | ⟨found, hcons, -, hfound, hnext⟩
      · rw [hempty, hnext]
        exact ⟨rfl, Nat.le_refl _, graph.columnsFrom_vertexCount row⟩
      · rw [hcons, hnext]
        exact ⟨rfl, hfound, rfl⟩

theorem next_after_walkEdges (hrow : graph.indexOf? vertex = some row) (count : Nat) :
    ((graph.walkEdges vertex).after count).next.1 =
      (graph.edgeColumns vertex)[count]?.bind (graph.edgeAt? row) := by
  obtain ⟨hafter, hscanned, hleft⟩ := after_walkEdges hrow count
  rw [hafter, ← List.head?_drop, ← hleft]
  rcases EdgeWalk.next_eq graph row hscanned with
    ⟨hempty, hnext⟩ | ⟨found, hcons, -, -, hnext⟩
  · rw [hempty, hnext]
    rfl
  · rw [hcons, hnext]
    rfl

theorem bounds_after_walkEdges (hrow : graph.indexOf? vertex = some row) (count : Nat) :
    ((graph.walkEdges vertex).after count).bounds =
      (0, graph.vertexCount - graph.columnsScanned vertex count) := by
  rw [(after_walkEdges hrow count).1]
  rfl

/-- A walk of an absent vertex stays as it is. -/
theorem after_walkEdges_of_none (hrow : graph.indexOf? vertex = none) (count : Nat) :
    (graph.walkEdges vertex).after count = ⟨graph, none, 0⟩ := by
  induction count with
  | zero =>
      rw [EdgeWalk.after, walkEdges, hrow]
  | succ count ih =>
      rw [EdgeWalk.after, ih]
      rfl

theorem columnsScanned_le_succ (hrow : graph.indexOf? vertex = some row) (count : Nat) :
    graph.columnsScanned vertex count ≤ graph.columnsScanned vertex (count + 1) := by
  obtain ⟨-, hscanned, hleft⟩ := after_walkEdges hrow count
  rw [columnsScanned.eq_def graph vertex (count + 1)]
  dsimp only
  rw [← List.head?_drop, ← hleft]
  rcases EdgeWalk.next_eq graph row hscanned with ⟨hempty, -⟩ | ⟨found, hcons, hbehind, -, -⟩
  · rw [hempty]
    exact hscanned
  · rw [hcons]
    exact Nat.le_succ_of_le hbehind

/-! ## Coherent graphs -/

variable [Inhabited E] [EquivBEq V]

theorem Coherent.hasEdge_eq_present (hcoherent : graph.Coherent) {target : V}
    (hrow : graph.indexOf? vertex = some row) (htarget : graph.vertexAt? column = some target) :
    graph.hasEdge vertex target = graph.table.present row column := by
  have hcolumn : graph.indexOf? target = some column :=
    (hcoherent.index_iff target column).mpr (holds_self htarget)
  rw [hasEdge, hrow, hcolumn]

theorem Coherent.mem_edgeColumns_of_some (hcoherent : graph.Coherent)
    (hrow : graph.indexOf? vertex = some row) :
    column ∈ graph.edgeColumns vertex ↔
      ∃ target, graph.vertexAt? column = some target ∧ graph.hasEdge vertex target = true := by
  rw [edgeColumns, hrow]
  dsimp only
  rw [List.mem_filter, List.mem_range]
  constructor
  · rintro ⟨hcolumn, hpresent⟩
    have htarget : graph.vertexAt? column = some graph.vertices[column] :=
      Array.getElem?_eq_getElem hcolumn
    exact ⟨_, htarget, (hcoherent.hasEdge_eq_present hrow htarget).trans hpresent⟩
  · rintro ⟨target, htarget, hedge⟩
    obtain ⟨hcolumn, -⟩ := Array.getElem?_eq_some_iff.mp htarget
    exact ⟨hcolumn, (hcoherent.hasEdge_eq_present hrow htarget).symm.trans hedge⟩

/-- The cell in a column with an edge holds the edge and its cost. -/
theorem Coherent.edgeAt?_of_mem (hcoherent : graph.Coherent)
    (hrow : graph.indexOf? vertex = some row) (hcolumn : column ∈ graph.edgeColumns vertex) :
    ∃ target cost, graph.vertexAt? column = some target ∧
      graph.edgeCost? vertex target = some cost ∧
        graph.edgeAt? row column = some (target, cost) := by
  obtain ⟨target, htarget, hedge⟩ := (hcoherent.mem_edgeColumns_of_some hrow).mp hcolumn
  have hplace : graph.indexOf? target = some column :=
    (hcoherent.index_iff target column).mpr (holds_self htarget)
  have hcost : graph.edgeCost? vertex target = graph.table.edge? row column := by
    rw [edgeCost?, hrow, hplace]
  rw [hcoherent.hasEdge_eq_isSome] at hedge
  obtain ⟨cost, hsome⟩ := Option.isSome_iff_exists.mp hedge
  refine ⟨target, cost, htarget, hsome, ?_⟩
  rw [edgeAt?, htarget, Option.bind_some, ← hcost, hsome, Option.map_some]

omit [EquivBEq V] in
theorem Coherent.cell_lt_size (hcoherent : graph.Coherent) (hrow : graph.indexOf? vertex = some row)
    (hcolumn : column < graph.vertexCount) :
    graph.table.cell row column < graph.table.presence.size ∧
      graph.table.cell row column < graph.table.costs.size := by
  rw [hcoherent.table.size_presence, hcoherent.table.size_costs, and_self]
  exact EdgeTable.place_lt (hcoherent.lt_side hrow)
    (Nat.lt_of_lt_of_le hcolumn hcoherent.vertexCount_le)

/-! ## Walks -/

variable [LawfulHashable V]

theorem Coherent.walksEdges_of_some (hcoherent : graph.Coherent)
    (hrow : graph.indexOf? vertex = some row) : graph.WalksEdges vertex where
  increasing := by
    rw [edgeColumns, hrow]
    exact List.pairwise_lt_range.filter _
  mem_edgeColumns column := hcoherent.mem_edgeColumns_of_some hrow
  yields := by
    intro count column hcolumn
    obtain ⟨target, cost, htarget, hcost, hedge⟩ :=
      hcoherent.edgeAt?_of_mem hrow (List.mem_of_getElem? hcolumn)
    refine ⟨target, cost, htarget, hcost, ?_⟩
    rw [next_after_walkEdges hrow, hcolumn, Option.bind_some, hedge]
  ends := by
    intro count hcount
    rw [next_after_walkEdges hrow, List.getElem?_eq_none hcount, Option.bind_none]
  inside := fun _ _ => hcoherent.cell_lt_size
  bounds_of_present := fun _ => bounds_after_walkEdges hrow
  absent := by
    intro habsent
    rw [hasVertex_eq_isSome, hrow] at habsent
    exact absurd habsent (by simp)
  bounds_antitone := by
    intro count
    rw [bounds_after_walkEdges hrow, bounds_after_walkEdges hrow]
    exact Nat.sub_le_sub_left (columnsScanned_le_succ hrow count) _
  bounds_suffice := by
    intro count
    obtain ⟨-, -, hleft⟩ := after_walkEdges hrow count
    rw [bounds_after_walkEdges hrow, ← List.length_drop, ← hleft, columnsFrom]
    exact (List.length_filter_le _ _).trans_eq List.length_range'
  calls_eq count := EdgeWalk.calls_eq_map count _

omit [Inhabited E] in
theorem walksEdges_of_none (hrow : graph.indexOf? vertex = none) : graph.WalksEdges vertex := by
  have hcolumns : graph.edgeColumns vertex = [] := by rw [edgeColumns, hrow]
  have hbounds : ∀ count, ((graph.walkEdges vertex).after count).bounds = (0, 0) := by
    intro count
    rw [after_walkEdges_of_none hrow]
    rfl
  exact {
    increasing := by
      rw [hcolumns]
      exact .nil
    mem_edgeColumns := by
      intro column
      simp [hcolumns, hasEdge, hrow]
    yields := by
      intro count column hcolumn
      rw [hcolumns] at hcolumn
      exact absurd hcolumn (by simp)
    ends := by
      intro count _
      rw [after_walkEdges_of_none hrow]
      rfl
    inside := by
      intro row column hsome
      rw [hrow] at hsome
      exact absurd hsome (by simp)
    bounds_of_present := by
      intro hpresent
      rw [hasVertex_eq_isSome, hrow] at hpresent
      exact absurd hpresent (by simp)
    absent := fun _ => ⟨hcolumns, hbounds⟩
    bounds_antitone := by
      intro count
      rw [hbounds, hbounds]
    bounds_suffice := by
      intro count
      rw [hcolumns]
      exact (Nat.zero_sub count).trans_le (Nat.zero_le _)
    calls_eq := fun count => EdgeWalk.calls_eq_map count _ }

variable [ByteSize E] [Literal V]

/-- However often it is called, a walk over the edges of a vertex yields them by the columns of
their targets and then nothing, and before and after each call its bounds hold. -/
theorem Reachable.walks_edges (hreached : graph.Reachable) (vertex : V) :
    graph.WalksEdges vertex := by
  cases hrow : graph.indexOf? vertex with
  | none => exact walksEdges_of_none hrow
  | some row => exact hreached.coherent.walksEdges_of_some hrow

/-- Calls that leave gaps in the rows, also behind the last edge. -/
def skippingCalls : List (GraphCall Nat Int64) :=
  [.addVertex .unlimited 1, .addVertex .unlimited 2, .addVertex .unlimited 3,
    .addVertex .unlimited 4, .addVertex .unlimited 5, .addEdge 3 2 7, .addEdge 3 4 9,
    .addEdge 1 5 3]

theorem walks_edges_skippingCalls :
    ∃ graph : MatrixGraph Nat Int64, graph.Reachable ∧
      graph.edgeColumns 3 = [1, 3] ∧
      EdgeWalk.calls 3 (graph.walkEdges 3) =
        [(some (2, 7), (0, 3)), (some (4, 9), (0, 1)), (none, (0, 0))] ∧
      graph.hasVertex 6 = false ∧ graph.WalksEdges 3 ∧ graph.WalksEdges 6 := by
  have hinitial : Initial (ofTable (.blank 1) : MatrixGraph Nat Int64) :=
    Or.inr ⟨.unlimited, ⟨1⟩, by rfl⟩
  have hreached : Reachable (Calls.run DirectedGraph.perform
      (ofTable (.blank 1) : MatrixGraph Nat Int64) skippingCalls).2 :=
    Calls.Reachable.run skippingCalls (.start hinitial)
  exact ⟨_, hreached, by cbv, by cbv, by cbv, hreached.walks_edges 3, hreached.walks_edges 6⟩

end MatrixGraph

end Collections
