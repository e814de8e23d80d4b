import Mathlib
import Collections.Proofs.Graph.EdgeLists
import Collections.Proofs.Graph.Interchange

/-!
# List graphs stand for graphs with costs

A list graph depicts the graph that has its vertices and its costs, as a matrix graph
does.  Each call leads to a list graph that depicts the changed model, and answers what
the model answers, except that it refuses a vertex that it already has.
-/

namespace Collections

universe u v

namespace ListGraph

variable {V : Type u} {E : Type v} [BEq V] [Hashable V] [EquivBEq V]

/-! ## The vertices of a list graph -/

section Vertices

variable [LawfulHashable V] {graph : ListGraph V E} {row : EdgeList V E} {source vertex : V}

/-- A written row of a vertex that is there leaves the vertices as they are. -/
theorem hasVertex_insert (hrow : graph.rows[source]? = some row) (changed : EdgeList V E)
    (count : Nat) (vertex : V) :
    (⟨graph.rows.insert source changed, count⟩ : ListGraph V E).hasVertex vertex =
      graph.hasVertex vertex := by
  rw [hasVertex, Std.HashMap.contains_insert]
  cases hsame : source == vertex with
  | false => rfl
  | true =>
      rw [hasVertex_eq_isSome, ← Std.HashMap.getElem?_congr hsame, hrow]
      rfl

variable {vertices : Finset (EqClass V)}
variable (hvertices : ∀ vertex, graph.hasVertex vertex = decide (.of vertex ∈ vertices))

include hvertices

omit [LawfulHashable V] in
theorem hasVertex_iff_mem (vertex : V) :
    graph.hasVertex vertex = true ↔ .of vertex ∈ vertices := by
  rw [hvertices, decide_eq_true_eq]

theorem mem_of_some (hrow : graph.rows[vertex]? = some row) : .of vertex ∈ vertices := by
  rw [← hasVertex_iff_mem hvertices, hasVertex_eq_isSome, hrow]
  rfl

theorem notMem_of_none (hrow : graph.rows[vertex]? = none) : .of vertex ∉ vertices := by
  rw [← hasVertex_iff_mem hvertices, hasVertex_eq_isSome, hrow]
  exact Bool.false_ne_true

omit [LawfulHashable V] in
theorem notMem_of_hasVertex_eq_false (habsent : graph.hasVertex vertex = false) :
    .of vertex ∉ vertices := by
  rw [← hasVertex_iff_mem hvertices, habsent]
  exact Bool.false_ne_true

/-- A row of a new vertex adds the vertex to those that the graph has. -/
theorem hasVertex_insert_new (added : V) (row : EdgeList V E) (count : Nat) (vertex : V) :
    (⟨graph.rows.insert added row, count⟩ : ListGraph V E).hasVertex vertex =
      decide (.of vertex ∈ insert (.of added) vertices) := by
  rw [hasVertex, Std.HashMap.contains_insert, ← hasVertex, hvertices, Bool.eq_iff_iff]
  simp only [Bool.or_eq_true, decide_eq_true_eq, Finset.mem_insert, EqClass.of_eq_of_iff_symm]

/-- Without the row of a vertex the graph has all others. -/
theorem hasVertex_rowsWithout (removed : V) (count : Nat) (vertex : V) :
    (⟨graph.rowsWithout removed, count⟩ : ListGraph V E).hasVertex vertex =
      decide (.of vertex ∈ vertices.erase (.of removed)) := by
  rw [hasVertex, contains_rowsWithout, hvertices, Bool.eq_iff_iff]
  simp only [Bool.and_eq_true, Bool.not_eq_true', decide_eq_true_eq, Finset.mem_erase, ne_eq,
    EqClass.of_eq_of_iff_symm, Bool.not_eq_true]

end Vertices

/-! ## Depiction -/

/-- The vertices are those of the model, and so are the costs of the edges. -/
structure Depicts (graph : ListGraph V E) (model : CostGraph (EqClass V) E) : Prop where
  vertices : ∀ vertex, graph.hasVertex vertex = decide (.of vertex ∈ model.vertices)
  costs : ∀ source target,
    graph.edgeCost? source target = model.cost? (.of source) (.of target)

section Depiction

variable [LawfulHashable V] {graph : ListGraph V E} {model : CostGraph (EqClass V) E}
variable {source target vertex : V} {row : EdgeList V E}

omit [LawfulHashable V] in
theorem depicts_empty : (empty : ListGraph V E).Depicts .empty where
  vertices vertex := by
    rw [hasVertex, empty, CostGraph.empty]
    simp
  costs source target := by
    rw [edgeCost?, empty, CostGraph.empty]
    simp

omit [EquivBEq V] [LawfulHashable V] in
theorem edgeCost?_of_some (hrow : graph.rows[source]? = some row) (target : V) :
    graph.edgeCost? source target = row.cost? target := by
  rw [edgeCost?, hrow, Option.bind_some]

/-- Writing a row changes the costs of the edges that leave its vertex. -/
theorem edgeCost?_insert (graph : ListGraph V E) (vertex : V) (row : EdgeList V E) (count : Nat)
    (source target : V) :
    (⟨graph.rows.insert vertex row, count⟩ : ListGraph V E).edgeCost? source target =
      if (vertex == source) = true then row.cost? target
      else graph.edgeCost? source target := by
  rw [edgeCost?, edgeCost?, Std.HashMap.getElem?_insert]
  split <;> rfl

/-- A row is written for a vertex of the model, and the costs that leave it follow. -/
theorem Depicts.insertRow (hdepicts : graph.Depicts model)
    (hrow : graph.rows[source]? = some row) {changed : EdgeList V E}
    {after : CostGraph (EqClass V) E} (hvertices : after.vertices = model.vertices)
    (hcosts : ∀ first second, after.cost? (.of first) (.of second) =
      if (source == first) = true then changed.cost? second
      else model.cost? (.of first) (.of second)) (count : Nat) :
    (⟨graph.rows.insert source changed, count⟩ : ListGraph V E).Depicts after where
  vertices vertex := by
    rw [hasVertex_insert hrow, hdepicts.vertices, hvertices]
  costs first second := by
    rw [edgeCost?_insert, hcosts, hdepicts.costs]

/-- The costs of the row of a vertex are those of the model, also for an equal vertex. -/
theorem Depicts.cost?_row (hdepicts : graph.Depicts model)
    (hrow : graph.rows[source]? = some row) {first : V} (hsame : (source == first) = true)
    (second : V) : row.cost? second = model.cost? (.of first) (.of second) := by
  rw [← hdepicts.costs, edgeCost?_of_some]
  rw [← Std.HashMap.getElem?_congr hsame, hrow]

theorem Depicts.addEdge (hdepicts : graph.Depicts model)
    (hrow : graph.rows[source]? = some row) (hsource : .of source ∈ model.vertices)
    (htarget : .of target ∈ model.vertices) (cost : E) (count : Nat) :
    (⟨graph.rows.insert source (row.put target cost), count⟩ : ListGraph V E).Depicts
      (model.setCost hsource htarget cost) := by
  apply hdepicts.insertRow hrow
  · rfl
  · intro first second
    rw [CostGraph.setCost]
    simp only [EqClass.of_eq_of_iff_symm, EdgeList.cost?_put]
    by_cases hsame : (source == first) = true
    · rw [if_pos hsame, hdepicts.cost?_row hrow hsame]
      simp only [hsame, true_and]
    · rw [if_neg hsame, if_neg fun hpair => hsame hpair.1]

theorem Depicts.removeEdge (hdepicts : graph.Depicts model)
    (hrow : graph.rows[source]? = some row) (count : Nat) :
    (⟨graph.rows.insert source (row.without target), count⟩ : ListGraph V E).Depicts
      (model.deleteEdge (.of source) (.of target)) := by
  apply hdepicts.insertRow hrow
  · rfl
  · intro first second
    rw [CostGraph.deleteEdge]
    simp only [EqClass.of_eq_of_iff_symm, EdgeList.cost?_without]
    by_cases hsame : (source == first) = true
    · rw [if_pos hsame, hdepicts.cost?_row hrow hsame]
      simp only [hsame, true_and]
    · rw [if_neg hsame, if_neg fun hpair => hsame hpair.1]

theorem Depicts.addVertex (hdepicts : graph.Depicts model)
    (habsent : .of vertex ∉ model.vertices) :
    ({ graph with rows := graph.rows.insert vertex ⟨vertex, []⟩ } : ListGraph V E).Depicts
      (model.insertVertex (.of vertex)) where
  vertices := hasVertex_insert_new hdepicts.vertices vertex ⟨vertex, []⟩ graph.edgeCount
  costs source target := by
    rw [edgeCost?_insert]
    split
    next hsame =>
      rw [EqClass.of_eq_of_iff.mpr hsame] at habsent
      exact (model.cost?_eq_none_of_source habsent _).symm
    next => exact hdepicts.costs source target

theorem Depicts.rowsWithout (hdepicts : graph.Depicts model) (vertex : V) (count : Nat) :
    (⟨graph.rowsWithout vertex, count⟩ : ListGraph V E).Depicts
      (model.deleteVertex (.of vertex)) where
  vertices := hasVertex_rowsWithout hdepicts.vertices vertex count
  costs source target := by
    rw [edgeCost?, getElem?_rowsWithout, CostGraph.deleteVertex]
    simp only [EqClass.of_eq_of_iff_symm]
    by_cases hsource : (vertex == source) = true
    · rw [if_pos hsource, if_pos (Or.inl hsource), Option.bind_none]
    · rw [if_neg hsource, ← hdepicts.costs, edgeCost?]
      cases hrow : graph.rows[source]? with
      | none => simp
      | some row =>
          rw [Option.map_some, Option.bind_some, Option.bind_some, EdgeList.cost?_without]
          simp only [hsource, Bool.false_eq_true, false_or]

variable [Literal V]

/-! ### Calls -/

theorem Depicts.matches_addVertex (hdepicts : graph.Depicts model) (memory : Memory)
    (vertex : V) :
    DirectedGraph.AnswersMatch (model.perform (.addVertex memory vertex)).1
        (.added ((graph.addVertex vertex).1.map fun _ => true)) ∧
      (graph.addVertex vertex).2.Depicts (model.perform (.addVertex memory vertex)).2 := by
  rw [ListGraph.addVertex, CostGraph.perform]
  by_cases hpresent : .of vertex ∈ model.vertices
  · rw [if_pos ((hasVertex_iff_mem hdepicts.vertices vertex).mpr hpresent),
      CostGraph.insertVertex_of_mem hpresent, decide_eq_false (not_not.mpr hpresent)]
    exact ⟨.known (literal vertex), hdepicts⟩
  · rw [if_neg fun hfound => hpresent ((hasVertex_iff_mem hdepicts.vertices vertex).mp hfound),
      decide_eq_true hpresent]
    exact ⟨.new, hdepicts.addVertex hpresent⟩

theorem Depicts.matches_addEdge (hdepicts : graph.Depicts model) (source target : V) (cost : E) :
    DirectedGraph.AnswersMatch (model.perform (.addEdge source target cost)).1
        (.connected (graph.addEdge source target cost).1) ∧
      (graph.addEdge source target cost).2.Depicts
        (model.perform (.addEdge source target cost)).2 := by
  rw [CostGraph.perform]
  cases hrow : graph.rows[source]? with
  | none =>
      rw [addEdge_of_source_none hrow, dif_neg (notMem_of_none hdepicts.vertices hrow)]
      exact ⟨.missing .source (literal source), hdepicts⟩
  | some row =>
      have hsource := mem_of_some hdepicts.vertices hrow
      rw [dif_pos hsource]
      by_cases htarget : .of target ∈ model.vertices
      · have hfound := (hasVertex_iff_mem hdepicts.vertices target).mpr htarget
        rw [addEdge_of_some hrow hfound, dif_pos htarget]
        exact ⟨.connected, hdepicts.addEdge hrow hsource htarget cost _⟩
      · have habsent : graph.hasVertex target = false := by
          rw [hdepicts.vertices, decide_eq_false htarget]
        rw [addEdge_of_target_none hrow habsent, dif_neg htarget]
        exact ⟨.missing .target (literal target), hdepicts⟩

theorem Depicts.matches_removeEdge (hdepicts : graph.Depicts model) (hcoherent : graph.Coherent)
    (source target : V) :
    DirectedGraph.AnswersMatch (model.perform (.removeEdge source target)).1
        (.removed (graph.removeEdge source target).1) ∧
      (graph.removeEdge source target).2.Depicts
        (model.perform (.removeEdge source target)).2 := by
  rw [CostGraph.perform]
  cases hrow : graph.rows[source]? with
  | none =>
      have habsent := notMem_of_none hdepicts.vertices hrow
      have hcost := model.cost?_eq_none_of_source habsent (.of target)
      rw [removeEdge_of_source_none hrow, CostGraph.deleteEdge_of_none hcost, hcost]
      exact ⟨.removed false, hdepicts⟩
  | some row =>
      have hcost := hdepicts.cost?_row hrow BEq.rfl target
      cases hpresent : (row.cost? target).isSome with
      | false =>
          have hnone : model.cost? (.of source) (.of target) = none := by
            rw [← Option.not_isSome_iff_eq_none, ← hcost, hpresent]
            exact Bool.false_ne_true
          rw [removeEdge_of_target_none hrow hpresent, CostGraph.deleteEdge_of_none hnone, hnone]
          exact ⟨.removed false, hdepicts⟩
      | true =>
          rw [removeEdge_of_some hrow hpresent, ← hcost, hpresent,
            EdgeList.erase_eq_without (hcoherent.distinct hrow)]
          exact ⟨.removed true, hdepicts.removeEdge hrow _⟩

theorem Depicts.matches_removeVertex (hdepicts : graph.Depicts model)
    (hcoherent : graph.Coherent) (vertex : V) :
    DirectedGraph.AnswersMatch (model.perform (.removeVertex vertex)).1
        (.removed (graph.removeVertex vertex).1) ∧
      (graph.removeVertex vertex).2.Depicts (model.perform (.removeVertex vertex)).2 := by
  rw [CostGraph.perform]
  cases hrow : graph.rows[vertex]? with
  | none =>
      have habsent := notMem_of_none hdepicts.vertices hrow
      rw [removeVertex_of_none hrow, CostGraph.deleteVertex_of_notMem habsent,
        decide_eq_false habsent]
      exact ⟨.removed false, hdepicts⟩
  | some row =>
      rw [hcoherent.removeVertex_of_some hrow, decide_eq_true (mem_of_some hdepicts.vertices hrow)]
      exact ⟨.removed true, hdepicts.rowsWithout vertex _⟩

/-- The list graph and the model answer a call alike, up to a vertex that is there already, and
it changes both alike. -/
theorem Depicts.perform (hdepicts : graph.Depicts model) (hcoherent : graph.Coherent)
    (call : GraphCall V E) :
    DirectedGraph.AnswersMatch (model.perform call).1 (DirectedGraph.perform graph call).1 ∧
      (DirectedGraph.perform graph call).2.Depicts (model.perform call).2 := by
  cases call with
  | addVertex memory vertex => exact hdepicts.matches_addVertex memory vertex
  | addEdge source target cost => exact hdepicts.matches_addEdge source target cost
  | removeEdge source target => exact hdepicts.matches_removeEdge hcoherent source target
  | removeVertex vertex => exact hdepicts.matches_removeVertex hcoherent vertex
  | clear => exact ⟨.cleared, depicts_empty⟩

end Depiction

/-! ## Vertices and edges as they are listed -/

section Listing

variable [LawfulHashable V] {graph : ListGraph V E}

omit [EquivBEq V] [LawfulHashable V] in
theorem vertices_eq (graph : ListGraph V E) :
    graph.vertices = graph.rows.toList.map fun entry => entry.2.vertex := by
  rw [vertices, values_eq_map_toList, List.map_map]
  rfl

/-- A listed row is found at its key and at its vertex, which is equal to the key. -/
theorem Coherent.of_mem_toList (hcoherent : graph.Coherent) {entry : V × EdgeList V E}
    (hentry : entry ∈ graph.rows.toList) :
    (entry.2.vertex == entry.1) = true ∧ graph.rows[entry.2.vertex]? = some entry.2 := by
  have hrow : graph.rows[entry.1]? = some entry.2 :=
    (Std.HashMap.mem_toList_iff_getKey?_eq_some_and_getElem?_eq_some.mp hentry).2
  have hsame := hcoherent.vertex_eq hrow
  exact ⟨hsame, (Std.HashMap.getElem?_congr hsame).trans hrow⟩

theorem degree_congr (graph : ListGraph V E) {first second : V}
    (hsame : (first == second) = true) : graph.degree first = graph.degree second := by
  rw [degree, degree, edges, edges, Std.HashMap.getElem?_congr hsame]

theorem Coherent.edgeCount_eq_sum (hcoherent : graph.Coherent) :
    graph.edgeCount = (graph.vertices.map graph.degree).sum := by
  rw [hcoherent.edgeCount_eq, countEdges_eq_sum, vertices_eq, List.map_map]
  congr 1
  apply List.map_congr_left
  intro entry hentry
  exact (degree_of_some (hcoherent.of_mem_toList hentry).2).symm

theorem Coherent.distinct_vertices (hcoherent : graph.Coherent) :
    graph.vertices.Pairwise fun first second => ¬ (first == second) = true := by
  rw [vertices_eq, List.pairwise_map]
  apply List.Pairwise.imp_of_mem _ (distinctKeys_toList graph.rows)
  intro first second hfirst hsecond hdifferent hsame
  have hkeys := BEq.trans (BEq.symm (hcoherent.of_mem_toList hfirst).1) hsame
  exact hdifferent (BEq.trans hkeys (hcoherent.of_mem_toList hsecond).1)

theorem Coherent.mem_vertices (hcoherent : graph.Coherent) (vertex : V) :
    graph.hasVertex vertex = true ↔ ∃ stored ∈ graph.vertices, (stored == vertex) = true := by
  rw [hasVertex_eq_isSome, vertices_eq, Option.isSome_iff_exists]
  constructor
  · intro hfound
    obtain ⟨row, hrow⟩ := hfound
    obtain ⟨key, -, hentry⟩ :=
      Std.HashMap.getElem?_eq_some_iff_exists_beq_and_mem_toList.mp hrow
    exact ⟨row.vertex, List.mem_map.mpr ⟨(key, row), hentry, rfl⟩, hcoherent.vertex_eq hrow⟩
  · intro hlisted
    obtain ⟨stored, hstored, hsame⟩ := hlisted
    obtain ⟨entry, hentry, hvertex⟩ := List.mem_map.mp hstored
    have hrow := (hcoherent.of_mem_toList hentry).2
    rw [hvertex, Std.HashMap.getElem?_congr hsame] at hrow
    exact ⟨entry.2, hrow⟩

omit [LawfulHashable V] in
theorem Coherent.mem_edges (hcoherent : graph.Coherent) (source target : V) (cost : E) :
    graph.edgeCost? source target = some cost ↔
      ∃ stored, (stored, cost) ∈ graph.edges source ∧ (stored == target) = true := by
  rw [edgeCost?, edges]
  cases hrow : graph.rows[source]? with
  | none => simp
  | some row => exact EdgeList.cost?_eq_some_iff (hcoherent.distinct hrow)

/-- The answers of a coherent list graph fit together. -/
theorem Coherent.consistent [Literal V] (hcoherent : graph.Coherent) :
    DirectedGraph.Consistent graph where
  hasEdge_eq _ _ := rfl
  vertexCount_eq := by
    change graph.rows.size = graph.vertices.length
    rw [vertices_eq, List.length_map, Std.HashMap.length_toList]
  degree_eq _ := rfl
  degree_congr _ _ hsame := degree_congr graph hsame
  edgeCount_eq := hcoherent.edgeCount_eq_sum
  distinct_vertices := hcoherent.distinct_vertices
  mem_vertices := hcoherent.mem_vertices
  distinct_edges := by
    intro vertex
    change DistinctKeys (graph.edges vertex)
    rw [edges]
    cases hrow : graph.rows[vertex]? with
    | none => exact List.Pairwise.nil
    | some row => exact hcoherent.distinct hrow
  mem_edges := hcoherent.mem_edges

end Listing

end ListGraph

end Collections
